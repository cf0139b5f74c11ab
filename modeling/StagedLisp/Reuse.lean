import StagedLisp.Flow.Liveness

/-! Reuse of cells: a binding that is released early gives its cell to a later allocation of the
same size. -/
namespace StagedLisp

def integerSize : Nat := 8

def pairSize : Nat := 16

/-- The size of the cell an expression allocates for its value, when its constructor shows. -/
def allocationSize? : Value → Option Nat
  | .int _ => some integerSize
  | .pair _ (.sym keyword) tail =>
    if keyword == "cons" then some pairSize
    else if keyword == "list" then if tail.isNil then none else some pairSize
    else if keyword == "quote" then
      match tail.head? with
      | some (.int _) => some integerSize
      | some (.pair _ _ _) => some pairSize
      | _ => none
    else if keyword == "lift" then
      match tail with
      | .pair _ operand _ => allocationSize? operand
      | _ => none
    else none
  | _ => none

structure CellEvent where
  name : String
  size : Nat
  statement : Nat
deriving DecidableEq, Inhabited, Repr

structure ReusePair where
  freed : String
  alloc : String
  size : Nat
deriving DecidableEq, Repr

structure Reuse where
  sites : List CellEvent := []
  pairs : List ReusePair := []
deriving DecidableEq, Repr

namespace Reuse

def sitesOf (form : LetForm) : List CellEvent :=
  form.bindings.zipIdx.filterMap fun (b,i) =>
    (allocationSize? b.init).map fun size => ⟨b.name,size,i⟩

def freesOf (sites : List CellEvent) (early : String → Option Nat) : List CellEvent :=
  (sites.filterMap fun site => (early site.name).map fun line => { site with statement := line })
    |>.mergeSort fun a b => a.statement ≤ b.statement

def accepts (l : Liveness) (free site : CellEvent) : Bool :=
  free.statement < site.statement && site.size == free.size && (l.lastStatement? free.name).all (· ≤ free.statement)

/-- Gives each cell to the first site left that can take it over. -/
def pairUp (l : Liveness) : (frees sites : List CellEvent) → List ReusePair
  | [], _ => []
  | free :: frees, sites =>
    match sites.find? (accepts l free) with
    | none => pairUp l frees sites
    | some site => ⟨free.name,site.name,site.size⟩ :: pairUp l frees (sites.erase site)

def ofForm (form : LetForm) (l : Liveness) (early : String → Option Nat) : Reuse :=
  let sites := sitesOf form
  ⟨sites,pairUp l (freesOf sites early) sites⟩

def isDonor (r : Reuse) (name : String) : Bool := r.pairs.any (·.freed == name)

def forAllocation? (r : Reuse) (name : String) : Option ReusePair :=
  r.pairs.find? (·.alloc == name)

end Reuse

end StagedLisp
