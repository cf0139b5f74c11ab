import StagedLisp.Heap.Basic

/-! Strongly connected components of the cells reached from a root, in the order in which a
depth-first search completes them, so that what a component points to comes before it. -/
namespace StagedLisp.Heap

structure ComponentSearch where
  entered : Array (Option Nat)
  clock : Nat := 0
  /-- Cells without a component yet, the last one entered first. -/
  stack : List Nat := []
  components : List (List Nat) := []

namespace ComponentSearch

def enteredAt? (s : ComponentSearch) (id : Nat) : Option Nat := s.entered.getD id none

def enter (s : ComponentSearch) (id : Nat) : ComponentSearch :=
  { s with
    entered := s.entered.setIfInBounds id (some s.clock)
    clock := s.clock + 1
    stack := id :: s.stack }

def complete (s : ComponentSearch) (id : Nat) : ComponentSearch :=
  let members := s.stack.takeWhile (· != id) ++ [id]
  { s with
    stack := s.stack.drop members.length
    components := s.components ++ [members] }

/-- Looks at a child, given the earliest cell reached so far, and yields the earliest cell reached
with it. -/
def look (visit : Nat → ComponentSearch → Nat × ComponentSearch) (h : Heap)
    (state : Nat × ComponentSearch) (child : Nat) : Nat × ComponentSearch :=
  let (low,s) := state
  if !h.isLive child then (low,s)
  else match s.enteredAt? child with
    | some time => (if s.stack.contains child then min low time else low,s)
    | none =>
      let (reached,s) := visit child s
      (min low reached,s)

/-- Visits a cell that has not been entered, and yields the earliest cell on the stack that is
reached from it. Every nested visit enters one more cell, which bounds their depth. -/
def visit (h : Heap) : (depth : Nat) → Nat → ComponentSearch → Nat × ComponentSearch
  | 0, _, s => (s.clock,s)
  | depth + 1, id, s =>
    let time := s.clock
    let (low,s) := (h.children id).foldl (look (visit h depth) h) (time,s.enter id)
    (low,if low = time then s.complete id else s)

end ComponentSearch

def components (h : Heap) (root : Nat) : List (List Nat) :=
  if h.isLive root then
    (ComponentSearch.visit h h.cells.size root { entered := .replicate h.cells.size none }).2.components
  else []

end StagedLisp.Heap
