import StagedLisp.Heap.Release

/-! Weak references, which do not keep their targets and read as absent once these are released. -/
namespace StagedLisp

structure WeakRef where
  target : Nat
  alive : Bool := true
deriving DecidableEq, Repr

/-- The weak references by number, with a gap for each one that has been removed. -/
structure WeakTable where
  refs : Array (Option WeakRef) := #[]
deriving Repr

namespace WeakTable

def add (t : WeakTable) (target : Nat) : Nat × WeakTable :=
  (t.refs.size,{ t with refs := t.refs.push (some { target }) })

def target? (t : WeakTable) (id : Nat) : Option Nat :=
  ((t.refs.getD id none).filter WeakRef.alive).map WeakRef.target

def invalidate (t : WeakTable) (id : Nat) : WeakTable :=
  { t with refs := t.refs.modify id (·.map fun r => { r with alive := false }) }

def refersTo (target : Nat) (r : WeakRef) : Bool := r.alive && r.target == target

def invalidateTarget (t : WeakTable) (target : Nat) : Nat × WeakTable :=
  (t.refs.countP (·.any (refersTo target)), { t with refs := t.refs.map (·.map fun r =>
        if refersTo target r then { r with alive := false } else r) })

/-- Drops a reference to a cell and invalidates the weak ones to all that is freed. Yields the
number of cells freed. -/
def releaseStrong (t : WeakTable) (h : Heap) (id : Nat) : Nat × WeakTable × Heap :=
  let (released,h) := h.decRef id
  (released.length,released.foldl (fun t cell => (t.invalidateTarget cell).2) t,h)

def liveCount (t : WeakTable) : Nat := t.refs.countP (·.any WeakRef.alive)

def cleanup (t : WeakTable) : Nat × WeakTable :=
  (t.refs.countP (·.any (!·.alive)),{ t with refs := t.refs.map (·.filter WeakRef.alive) })

end WeakTable

end StagedLisp
