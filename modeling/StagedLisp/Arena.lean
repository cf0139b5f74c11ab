/-! What a session keeps to its end: shared names, and resources that it has to give back. -/
namespace StagedLisp

structure Arena where
  /-- The shared names, in order of first use. A name's position is its identity. -/
  names : List String := []
  resources : List String := []
deriving Repr

namespace Arena

/-- The position of the shared copy of a name, which is added on first use. -/
def intern (a : Arena) (name : String) : Nat × Arena :=
  match a.names.findIdx? (· == name) with
  | some position => (position,a)
  | none => (a.names.length,{ a with names := a.names ++ [name] })

def register (a : Arena) (label : String) : Arena := { a with resources := a.resources ++ [label] }

def releases (a : Arena) : List String := a.resources.reverse

end Arena

end StagedLisp
