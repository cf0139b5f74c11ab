/-! Finite maps from names, in order of first insertion. -/
namespace StagedLisp

abbrev Table (α : Type) := List (String × α)

namespace Table

def get? (t : Table α) (name : String) : Option α := t.lookup name

def set : Table α → String → α → Table α
  | [], name, value => [(name,value)]
  | (key,old) :: rest, name, value =>
    if key = name then (key,value) :: rest else (key,old) :: set rest name value

def erase (t : Table α) (name : String) : Table α := t.filter (·.1 != name)

def setAll (t : Table α) (entries : List (String × α)) : Table α :=
  entries.foldl (fun t (name,value) => t.set name value) t

end Table

end StagedLisp
