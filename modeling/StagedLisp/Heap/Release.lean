import StagedLisp.Heap.Basic

/-! Releasing cells: by reference count, as a whole tree, or one by one. Cells of the pool are
passed over. Each routine yields the cells it has released, in order. -/
namespace StagedLisp.Heap

def release (h : Heap) (id : Nat) : Bool × Heap :=
  if h.inPool id || !h.isLive id then (false,h)
  else (true,{ h with
    cells := h.cells.setIfInBounds id none
    recycled := id :: h.recycled
    freed := h.freed + 1 })

def releaseEach (action : Nat → Heap → List Nat × Heap) (h : Heap) (ids : List Nat) : List Nat × Heap :=
  ids.foldl (fun (released,h) id =>
    let (more,h) := action id h
    (released ++ more,h)) ([],h)

def incRef (h : Heap) (id : Nat) : Heap :=
  if h.inPool id then h else h.update id fun object => { object with count := object.count + 1 }

def decRefWithin : (depth : Nat) → Nat → Heap → List Nat × Heap
  | 0, _, h => ([],h)
  | depth + 1, id, h =>
    if h.inPool id then ([],h)
    else match h.object? id with
      | none => ([],h)
      | some object =>
        if 1 < object.count then ([],h.put id { object with count := object.count - 1 })
        else
          let (released,h) :=
            releaseEach (decRefWithin depth) (h.release id).2 object.children.reverse
          (id :: released,h)

/-- Drops a reference. The last one frees the cell and drops those to its children, the tail before
the head. Every nested release frees one more cell, which bounds their depth. -/
def decRef (h : Heap) (id : Nat) : List Nat × Heap := decRefWithin (h.cells.size + 1) id h

def freeTreeWithin : (depth : Nat) → Nat → Heap → List Nat × Heap
  | 0, _, h => ([],h)
  | depth + 1, id, h =>
    match h.object? id with
    | none => ([],h)
    | some object =>
      let (gone,h) := h.release id
      let (released,h) := releaseEach (freeTreeWithin depth) h object.children.reverse
      ((if gone then [id] else []) ++ released,h)

/-- Frees all that is reached from a cell, whatever the counts say. On a way down no freed cell
comes up twice, and between two of them no cell of the pool does, which bounds the depth. -/
def freeTree (h : Heap) (id : Nat) : List Nat × Heap :=
  freeTreeWithin ((h.cells.size + 1) * (h.poolSize + 1)) id h

def freeUnique (h : Heap) (id : Nat) : List Nat × Heap :=
  let children := h.children id
  let (gone,h) := h.release id
  let (released,h) := releaseEach (fun child h => h.decRef child) h children
  ((if gone then [id] else []) ++ released,h)

def setTail (h : Heap) (id : Nat) (tail : Option Nat) : Heap :=
  match h.object? id with
  | some object =>
    match object.content with
    | .pair head old =>
      let h := h.put id { object with content := .pair head tail }
      match old with
      | some old => (h.decRef old).2
      | none => h
    | .int _ => h
  | none => h

def deferFree (h : Heap) (id : Nat) : Heap := { h with pending := id :: h.pending }

def flush (h : Heap) : Nat × Heap :=
  (h.pending.length,(releaseEach (fun id h => h.decRef id) { h with pending := [] } h.pending).2)

/-- Gives up a reference to a cell in order to store something else there. A cell with no other
reference is handed over after its children have been dropped. -/
def tryReuse (h : Heap) (id : Nat) : Option Nat × Heap :=
  if !h.inPool id && h.count? id = some 1 then
    (some id,(releaseEach (fun child h => h.decRef child) h (h.children id)).2)
  else (none,(h.decRef id).2)

def reuse (h : Heap) (slot : Option Nat) (content : Content) : Nat × Heap :=
  match slot with
  | some id => if id < h.cells.size then (id,h.put id { content }) else h.alloc content
  | none => h.alloc content

end StagedLisp.Heap
