import StagedLisp.Record.Field

/-! Record types and the graph of who owns whom. A field that closes a cycle of owning fields is
demoted to weak, so that releasing a record comes to an end. -/
namespace StagedLisp

structure Record where
  name : String
  fields : List Field
deriving DecidableEq, Repr

namespace Record

def isRecursive (r : Record) : Bool := r.fields.any (·.typeName == r.name)

def field? (r : Record) (name : String) : Option Field := r.fields.find? (·.name == name)

def weakFields (r : Record) : List Field := r.fields.filter Field.isWeak

def declared (r : Record) : Record := { r with fields := r.fields.map Field.declared }

end Record

structure OwnershipEdge where
  owner : String
  field : String
  target : String
  isBack : Bool := false
deriving DecidableEq, Repr

namespace OwnershipGraph

/-- The longest path that is followed; an edge to a new record beyond it counts as closing a
cycle. -/
def pathLimit : Nat := 256

inductive Visit where
  | unseen
  | onPath
  | finished
deriving DecidableEq, Repr, Inhabited

/-- An edge of the graph over positions: the field's name, and the target's position if the target
is a registered record. -/
abbrev Arc := String × Option Nat

structure Search where
  visits : Array Visit
  closing : List (Nat × String)

namespace Search

def visit (s : Search) (node : Nat) : Visit := s.visits.getD node .finished

def mark (s : Search) (node : Nat) (visit : Visit) : Search :=
  { s with visits := s.visits.setIfInBounds node visit }

def close (s : Search) (node : Nat) (field : String) : Search :=
  { s with closing := s.closing ++ [(node,field)] }

def follow (deeper : Search → String → Nat → Search) (node : Nat) (s : Search) : Arc → Search
  | (_,none) => s
  | (field,some target) =>
    match s.visit target with
    | .onPath => s.close node field
    | .finished => s
    | .unseen => deeper s field target

def explore (arcs : Array (List Arc)) : Nat → Nat → Search → Search
  | 0, node, s =>
    ((arcs.getD node []).foldl (follow (fun s field _ => s.close node field) node)
      (s.mark node .onPath)).mark node .finished
  | room + 1, node, s =>
    ((arcs.getD node []).foldl (follow (fun s _ target => explore arcs room target s) node)
      (s.mark node .onPath)).mark node .finished

end Search

def arcs (records : List Record) : Array (List Arc) :=
  (records.map fun r =>
    (r.declared.fields.filter Field.isTraced).map fun f =>
      (f.name,records.findIdx? (·.name == f.typeName))).toArray

def closing (records : List Record) : List (Nat × String) :=
  let graph := arcs records
  let start : Search := ⟨.replicate records.length .unseen,[]⟩
  ((List.range records.length).foldl
    (fun s node => if s.visit node = .unseen then s.explore graph (pathLimit - 1) node else s)
    start).closing

end OwnershipGraph

/-- The registered records, in the order of their first registration, and their ownership graph. -/
structure Registry where
  records : List Record := []
  edges : List OwnershipEdge := []
deriving Repr

namespace Registry

def record? (r : Registry) (name : String) : Option Record := r.records.find? (·.name == name)

def contains (r : Registry) (name : String) : Bool := r.records.any (·.name == name)

/-- Demotes the fields that close a cycle, unless their strength is written down. -/
def demote (closing : List (Nat × String)) (r : Record) (position : Nat) : Record :=
  { r with fields := r.fields.map fun f =>
      { f with demoted := !f.isPinned && closing.contains (position,f.name) } }

/-- The registry of these records, whatever has been demoted in them before. -/
def ofRecords (records : List Record) : Registry :=
  let declared := records.map Record.declared
  let closing := OwnershipGraph.closing declared
  let settled := declared.zipIdx.map fun (r,position) => demote closing r position
  { records := settled
    edges := settled.flatMap fun r =>
      (r.fields.filter (·.declared.isTraced)).map fun f =>
        { owner := r.name, field := f.name, target := f.typeName, isBack := f.demoted } }

def put (records : List Record) (record : Record) : List Record :=
  if records.any (·.name == record.name) then
    records.map fun r => if r.name == record.name then record else r
  else records ++ [record]

def register (r : Registry) (name : String) (fields : List Field) : Result Registry :=
  match duplicateField? fields with
  | some field => fail (.duplicateField name field)
  | none => .ok (ofRecords (put r.records ⟨name,fields⟩))

end Registry

end StagedLisp
