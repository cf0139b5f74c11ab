import Mathlib.Data.Nat.Find
import StagedLisp.Proofs.Heap.Confluence

/-! Conservation of what is deferred: a reference that is put off is either queued or has been dropped,
whatever the order of calls and the heaps at the safe points. A flush is what safe points one after the
other come to. -/
namespace StagedLisp.DeferredQueue

open List Heap

def order (q : DeferredQueue) : List Nat := q.entries.map Prod.fst

def calls : (limit : Nat) → List (Nat × Nat) → List Nat
  | 0, _ | _ + 1, [] => []
  | limit + 1, (id,n) :: rest => id :: calls limit (if n ≤ 1 then rest else (id,n - 1) :: rest)

variable {entries : List (Nat × Nat)} {q : DeferredQueue} {h : Heap} {id : Nat}

/-- A call to the queue. At a safe point the heap is as the program has left it. -/
inductive Call where
  | defer (id : Nat)
  | safePoint (heap : Heap)

namespace Call

def perform (q : DeferredQueue) : Call → DeferredQueue
  | defer id => q.defer id
  | safePoint heap => (q.safePoint heap).2.1

def given : Call → List Nat
  | defer id => [id]
  | safePoint _ => []

def drops (q : DeferredQueue) : Call → List Nat
  | defer _ => []
  | safePoint _ => calls q.batchSize q.entries

end Call

def rounds : Nat → DeferredQueue → Heap → Nat × DeferredQueue × Heap
  | 0, q, h => (0,q,h)
  | n + 1, q, h =>
    let (applied,q,h) := q.safePoint h
    let (more,q,h) := rounds n q h
    (applied + more,q,h)

end StagedLisp.DeferredQueue
