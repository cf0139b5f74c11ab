import StagedLisp.Heap.Deferred
import StagedLisp.Heap.Frozen
import StagedLisp.Heap.Weak
import StagedLisp.Options

/-! The whole memory of a generated program at work. -/
namespace StagedLisp

structure Memory where
  heap : Heap
  deferred : DeferredQueue
  frozen : FrozenGroups := {}
  weak : WeakTable := {}
deriving Repr

structure Cleanup where
  pending : Nat
  deferred : Nat
  weak : Nat
deriving DecidableEq, Repr

namespace Memory

def start (options : Options) : Memory :=
  { heap := .withPool options.poolSize, deferred := .withBatch options.batchSize }

def deferRelease (m : Memory) (id : Nat) : Memory := { m with deferred := m.deferred.defer id }

def safePoint (m : Memory) : Nat × Memory :=
  let (applied,deferred,heap) := m.deferred.safePoint m.heap
  (applied,{ m with deferred, heap })

def flushDeferred (m : Memory) : Nat × Memory :=
  let (applied,deferred,heap) := m.deferred.flush m.heap
  (applied,{ m with deferred, heap })

def flushPending (m : Memory) : Nat × Memory :=
  let (count,heap) := m.heap.flush
  (count,{ m with heap })

def freeze (m : Memory) (root : Nat) : Option Nat × Memory :=
  let (group,frozen,heap) := m.frozen.freeze m.heap root
  (group,{ m with frozen, heap })

def releaseGroup (m : Memory) (id : Nat) : Nat × Memory :=
  let (count,frozen,heap) := m.frozen.release m.heap id
  (count,{ m with frozen, heap })

def releaseStrong (m : Memory) (id : Nat) : Nat × Memory :=
  let (count,weak,heap) := m.weak.releaseStrong m.heap id
  (count,{ m with weak, heap })

/-- The end of a program: all that was put off is done, and dead weak references are removed. -/
def shutdown (m : Memory) : Cleanup × Memory :=
  let (pending,m) := m.flushPending
  let (deferred,m) := m.flushDeferred
  let (weak,table) := m.weak.cleanup
  (⟨pending,deferred,weak⟩,{ m with weak := table })

end Memory

end StagedLisp
