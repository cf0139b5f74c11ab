import StagedLisp.Heap.Components
import StagedLisp.Heap.Release

/-! Frozen structures. Their cells are counted and released by component: a group is freed as a
whole when nothing outside points into it any more. -/
namespace StagedLisp

structure Group where
  id : Nat
  members : List Nat
  count : Nat
deriving DecidableEq, Repr

/-- The groups by number, with a gap for each one that has been freed. -/
structure FrozenGroups where
  groups : Array (Option Group) := #[]
deriving Repr

namespace FrozenGroups

def group? (f : FrozenGroups) (id : Nat) : Option Group := f.groups.getD id none

def liveCount (f : FrozenGroups) : Nat := f.groups.countP Option.isSome

def put (f : FrozenGroups) (id : Nat) (group : Option Group) : FrozenGroups :=
  { f with groups := f.groups.setIfInBounds id group }

def memberOf? (components : List (List Nat)) (id : Nat) : Option Nat :=
  components.findIdx? (·.contains id)

/-- The components that cells of other components point into, once for each reference. -/
def crossings (h : Heap) (components : List (List Nat)) : List Nat :=
  components.zipIdx.flatMap fun (members,source) =>
    ((members.flatMap h.children).filterMap (memberOf? components)).filter (· != source)

/-- Makes a group of each component of what is reached from `root`, and yields the root's group. -/
def freeze (f : FrozenGroups) (h : Heap) (root : Nat) : Option Nat × FrozenGroups × Heap :=
  let components := h.components root
  let base := f.groups.size
  let rootPosition := memberOf? components root
  let h := components.zipIdx.foldl (fun h (members,position) =>
    members.foldl (fun h member => h.setComponent member (base + position : Nat)) h) h
  let targets := crossings h components
  let groups := components.zipIdx.map fun (members,position) =>
    some { id := base + position
           members
           count := targets.count position + (if rootPosition = some position then 1 else 0) : Group }
  (rootPosition.map (base + ·),{ f with groups := f.groups ++ groups.toArray },h)

def incRef (f : FrozenGroups) (id : Nat) : FrozenGroups :=
  match f.group? id with
  | some group => f.put id (some { group with count := group.count + 1 })
  | none => f

inductive Outgoing where
  | group (id : Nat)
  | cell (id : Nat)
deriving DecidableEq, Repr

def outgoing (h : Heap) (group : Nat) (members : List Nat) : List Outgoing :=
  (members.flatMap h.children).filterMap fun child =>
    match h.object? child with
    | none => none
    | some object =>
      if object.component < 0 then some (.cell child)
      else if object.component.toNat = group then none
      else some (.group object.component.toNat)

def outgoingCells (edges : List Outgoing) : List Nat :=
  edges.filterMap fun | .cell id => some id | .group _ => none

def outgoingGroups (edges : List Outgoing) : List Nat :=
  edges.filterMap fun | .group id => some id | .cell _ => none

def releaseWithin : (depth : Nat) → Nat → FrozenGroups × Heap → Nat × FrozenGroups × Heap
  | 0, _, (f,h) => (0,f,h)
  | depth + 1, id, (f,h) =>
    match f.group? id with
    | none => (0,f,h)
    | some group =>
      if 1 < group.count then (0,f.put id (some { group with count := group.count - 1 }),h)
      else
        let edges := outgoing h id group.members
        let (freed,h) := Heap.releaseEach
          (fun member h => let (gone,h) := h.release member; (if gone then [member] else [],h))
          h group.members
        let (dropped,h) := Heap.releaseEach (fun child h => h.decRef child) h (outgoingCells edges)
        (outgoingGroups edges).reverse.foldl (fun (total,f,h) next =>
          let (more,f,h) := releaseWithin depth next (f,h)
          (total + more,f,h)) (freed.length + dropped.length,f.put id none,h)

/-- Drops a reference to a group. The last one frees its members and drops what they point to,
frozen groups after other cells. Yields the number of cells freed. Every nested release frees one
more group, which bounds their depth. -/
def release (f : FrozenGroups) (h : Heap) (id : Nat) : Nat × FrozenGroups × Heap :=
  releaseWithin (f.groups.size + 1) id (f,h)

end FrozenGroups

end StagedLisp
