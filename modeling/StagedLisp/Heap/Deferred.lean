import StagedLisp.Heap.Release

/-! Deferred releases: references to be dropped later, a batch at a time, oldest cell first. -/
namespace StagedLisp

structure DeferredQueue where
  entries : List (Nat × Nat) := []
  batchSize : Nat
  total : Nat := 0
deriving Repr

namespace DeferredQueue

def withBatch (size : Nat) : DeferredQueue := { batchSize := max size 1 }

def decrements (q : DeferredQueue) : Nat := q.entries.foldr (fun (_,n) total => n + total) 0

def defer (q : DeferredQueue) (id : Nat) : DeferredQueue :=
  if q.entries.any (·.1 == id) then
    { q with entries := q.entries.map fun (cell,n) => (cell,if cell == id then n + 1 else n) }
  else { q with entries := q.entries ++ [(id,1)], total := q.total + 1 }

def apply : (limit : Nat) → List (Nat × Nat) → Heap → Nat × List (Nat × Nat) × Heap
  | 0, entries, h => (0,entries,h)
  | _ + 1, [], h => (0,[],h)
  | limit + 1, (id,n) :: rest, h =>
    let (applied,entries,h) :=
      apply limit (if n ≤ 1 then rest else (id,n - 1) :: rest) (h.decRef id).2
    (applied + 1,entries,h)

def run (q : DeferredQueue) (limit : Nat) (h : Heap) : Nat × DeferredQueue × Heap :=
  let (applied,entries,h) := apply limit q.entries h
  (applied,{ q with entries },h)

def safePoint (q : DeferredQueue) (h : Heap) : Nat × DeferredQueue × Heap := q.run q.batchSize h

def flush (q : DeferredQueue) (h : Heap) : Nat × DeferredQueue × Heap := q.run q.decrements h

end DeferredQueue

end StagedLisp
