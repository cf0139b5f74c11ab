/-! Finite sets of names, as increasing lists. -/
namespace StagedLisp

abbrev NameSet := List String

namespace NameSet

def insert (name : String) : NameSet → NameSet
  | [] => [name]
  | first :: rest =>
    if name < first then name :: first :: rest
    else if name = first then first :: rest
    else first :: insert name rest

def ofList (names : List String) : NameSet := names.foldr insert []

def union (a b : NameSet) : NameSet := a.foldr insert b

def without (a : NameSet) (names : List String) : NameSet :=
  a.filter fun name => !names.contains name

end NameSet

end StagedLisp
