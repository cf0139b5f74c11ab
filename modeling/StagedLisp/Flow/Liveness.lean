import StagedLisp.Flow.Graph
import StagedLisp.Flow.NameSet

/-! Liveness over the control-flow graph, and the points where names die. A round computes the sets
of the nodes from the last to the first; rounds go on until one changes nothing. -/
namespace StagedLisp

namespace Flow

structure LiveSets where
  before : Array NameSet
  after : Array NameSet
deriving DecidableEq, Repr

def LiveSets.empty (g : Graph) : LiveSets := ⟨.replicate g.size [],.replicate g.size []⟩

def LiveSets.into (live : LiveSets) (n : Nat) : NameSet := live.before.getD n []

def LiveSets.outOf (live : LiveSets) (n : Nat) : NameSet := live.after.getD n []

def liveAfter (live : LiveSets) (node : Node) : NameSet :=
  node.succs.foldl (fun names s => (live.into s).union names) []

def liveBefore (node : Node) (after : NameSet) : NameSet :=
  (NameSet.ofList node.uses).union (after.without node.defs)

def visit (g : Graph) (state : LiveSets × Bool) (n : Nat) : LiveSets × Bool :=
  match g[n]? with
  | none => state
  | some node =>
    let (live,changed) := state
    let after := liveAfter live node
    let before := liveBefore node after
    if before = live.into n ∧ after = live.outOf n then (live,changed)
    else (⟨live.before.setIfInBounds n before,live.after.setIfInBounds n after⟩,true)

def round (g : Graph) (live : LiveSets) : LiveSets × Bool :=
  (List.range g.size).reverse.foldl (visit g) (live,false)

structure Solution where
  live : LiveSets
  rounds : Nat
  converged : Bool
deriving DecidableEq, Repr

def solve (g : Graph) : (cap rounds : Nat) → LiveSets → Solution
  | 0, rounds, live => ⟨live,rounds,false⟩
  | cap + 1, rounds, live =>
    let (live,changed) := round g live
    if changed then solve g cap (rounds + 1) live else ⟨live,rounds + 1,true⟩

/-- A name that is live before a node and dead on some of the edges out of it. -/
structure Death where
  name : String
  node : Nat
  statement : Nat
  conditional : Bool
  edges : List Nat
deriving DecidableEq, Repr

def deadEdges (live : LiveSets) (node : Node) (name : String) : List Nat :=
  (node.succs.zipIdx.filter fun (s,_) => !(live.into s).contains name).map Prod.snd

def deathsAt (live : LiveSets) (n : Nat) (node : Node) : List Death :=
  (live.into n).filterMap fun name =>
    let edges := deadEdges live node name
    if edges.isEmpty then none
    else some ⟨name,n,node.statement,edges.length < node.succs.length,edges⟩

def deaths (g : Graph) (live : LiveSets) : List Death :=
  g.toList.zipIdx.flatMap fun (node,n) => deathsAt live n node

def unassigned (form : LetForm) : List (String × Nat) :=
  form.bindings.zipIdx.filterMap fun (b,i) =>
    let later := match form.kind with
      | .plain => form.statements.drop (i + 1)
      | .recursive => form.statements
    if later.any (assigns b.name) then none else some (b.name,i)

end Flow

structure Liveness where
  graph : Flow.Graph
  solution : Flow.Solution
  deaths : List Flow.Death
  unassigned : List (String × Nat)

namespace Liveness

def ofForm (form : LetForm) (cap analysisDepth : Nat) : Liveness :=
  let graph := Flow.ofForm form analysisDepth
  let solution := Flow.solve graph cap 0 (.empty graph)
  ⟨graph,solution,Flow.deaths graph solution.live,Flow.unassigned form⟩

def deathsOf (l : Liveness) (name : String) : List Flow.Death := l.deaths.filter (·.name == name)

/-- The conditional, by its cell, and the branches of it that a death belongs to. -/
def branchesOf (l : Liveness) (death : Flow.Death) : List (Nat × Nat) :=
  match l.graph[death.node]? with
  | some { kind := .branch, site := some site, .. } => death.edges.map fun branch => (site,branch)
  | _ => []

/-- The branches of a statement on whose entry a name dies while it lives on along others. -/
def branchDeaths (l : Liveness) (name : String) (statement : Nat) : List (Nat × Nat) :=
  ((l.deathsOf name).filter fun d => d.conditional && d.statement == statement).flatMap l.branchesOf

def lastStatement? (l : Liveness) (name : String) : Option Nat :=
  ((l.deathsOf name).map Flow.Death.statement).max?

def isUnassigned (l : Liveness) (name : String) : Bool := l.unassigned.any (·.1 == name)

end Liveness

end StagedLisp
