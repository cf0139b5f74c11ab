/-! Shapes of data, from least to most entangled, and the routine that gives each one back. -/
namespace StagedLisp

inductive Shape where
  | unknown
  /-- No cell is reached by two paths. -/
  | tree
  /-- Cells may be shared. -/
  | dag
  /-- Cells may reach themselves. -/
  | cyclic
deriving DecidableEq, Inhabited, Repr

namespace Shape

def rank : Shape → Nat
  | unknown => 0
  | tree => 1
  | dag => 2
  | cyclic => 3

def join (a b : Shape) : Shape := if a.rank ≤ b.rank then b else a

def name : Shape → String
  | unknown => "unknown"
  | tree => "tree"
  | dag => "dag"
  | cyclic => "cyclic"

def all : List Shape := [unknown,tree,dag,cyclic]

def ofName? (name : String) : Option Shape := all.find? (·.name == name)

end Shape

inductive Routine where
  | freeTree
  | decRef
  | deferredRelease
  /-- Frees a cell known to have one reference, and drops its references to others. -/
  | freeUnique
deriving DecidableEq, Repr

def Routine.name : Routine → String
  | freeTree => "free_tree"
  | decRef => "dec_ref"
  | deferredRelease => "deferred_release"
  | freeUnique => "free_unique"

/-- Counting is safe under sharing and stays within a cycle, so it also serves unknown shapes. -/
def Shape.routine : Shape → Routine
  | tree => .freeTree
  | dag | unknown => .decRef
  | cyclic => .deferredRelease

end StagedLisp
