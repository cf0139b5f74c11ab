/-! A model of the memory of generated programs. Cells are numbered; the first ones form a pool that
is handed out once and never released. Other cells are recycled, the last released first. -/
namespace StagedLisp

inductive Content where
  | int (value : Int64)
  | pair (head tail : Option Nat)
deriving DecidableEq, Repr

structure Object where
  count : Nat := 1
  /-- The frozen component the object belongs to, negative if there is none. -/
  component : Int := -1
  content : Content
deriving DecidableEq, Repr

namespace Object

def isPair (o : Object) : Bool :=
  match o.content with
  | .pair _ _ => true
  | .int _ => false

def children (o : Object) : List Nat :=
  match o.content with
  | .pair head tail => head.toList ++ tail.toList
  | .int _ => []

end Object

structure Heap where
  cells : Array (Option Object) := #[]
  poolSize : Nat := 0
  poolUsed : Nat := 0
  recycled : List Nat := []
  /-- Cells to be released at the next flush, the last one first. -/
  pending : List Nat := []
  freed : Nat := 0
deriving Repr

namespace Heap

def withPool (size : Nat) : Heap := { cells := .replicate size none, poolSize := size }

def inPool (h : Heap) (id : Nat) : Bool := id < h.poolSize

def object? (h : Heap) (id : Nat) : Option Object := h.cells.getD id none

def isLive (h : Heap) (id : Nat) : Bool := (h.object? id).isSome

def count? (h : Heap) (id : Nat) : Option Nat := (h.object? id).map Object.count

def int? (h : Heap) (id : Nat) : Option Int64 :=
  match (h.object? id).map Object.content with
  | some (.int n) => some n
  | _ => none

def children (h : Heap) (id : Nat) : List Nat := ((h.object? id).map Object.children).getD []

def liveCount (h : Heap) : Nat := h.cells.countP Option.isSome

def put (h : Heap) (id : Nat) (object : Object) : Heap :=
  { h with cells := h.cells.setIfInBounds id (some object) }

def update (h : Heap) (id : Nat) (f : Object → Object) : Heap :=
  match h.object? id with
  | some object => h.put id (f object)
  | none => h

def alloc (h : Heap) (content : Content) : Nat × Heap :=
  match h.recycled with
  | id :: recycled => (id,{ h with recycled }.put id { content })
  | [] => (h.cells.size,{ h with cells := h.cells.push (some { content }) })

def newInt (h : Heap) (value : Int64) : Nat × Heap := h.alloc (.int value)

/-- The pair takes over the references to its parts. -/
def newPair (h : Heap) (head tail : Option Nat) : Nat × Heap := h.alloc (.pair head tail)

def newPoolInt (h : Heap) (value : Int64) : Nat × Heap :=
  if h.poolUsed < h.poolSize then
    (h.poolUsed,{ h with poolUsed := h.poolUsed + 1 }.put h.poolUsed { content := .int value })
  else h.newInt value

def setComponent (h : Heap) (id : Nat) (component : Int) : Heap :=
  h.update id fun object => { object with component }

def intsWithin (h : Heap) : Nat → Option Nat → List Int64
  | 0, _ | _, none => []
  | steps + 1, some id =>
    match (h.object? id).map Object.content with
    | some (.pair head tail) => (head.bind h.int?).toList ++ h.intsWithin steps tail
    | _ => []

/-- The integers along a list; a list that is not circular has fewer cells than the heap. -/
def ints (h : Heap) (list : Option Nat) : List Int64 := h.intsWithin (h.cells.size + 1) list

end Heap

end StagedLisp
