import StagedLisp.Proofs.Flow.Liveness
import StagedLisp.Proofs.Flow.Nodes

/-! Where names die. No node of the body defines a name, so a name that is dead once in the body
stays dead, and on every path through the body it dies along one edge at most. -/
namespace StagedLisp

open List Flow

variable {s last site : Nat} {edges : List (Nat × Nat)}

namespace Flow

/-- A path from one node to another, by the positions of its edges. -/
inductive Path (g : Graph) : Nat → List (Nat × Nat) → Nat → Prop where
  | done {n} : Path g n [] n
  | step {n k s last edges} : (successors g n)[k]? = some s → Path g s edges last → Path g n ((n,k) :: edges) last

def InBody (form : LetForm) (g : Graph) (n : Nat) : Prop :=
  ∃ node, g[n]? = some node ∧ node.statement = form.bodyIndex

variable {n : Nat} {live : LiveSets} {node : Node} {g : Graph}

theorem inBody_successor {form : LetForm} {budget : Nat}
    (inside : InBody form (ofForm form budget) n) (edge : s ∈ successors (ofForm form budget) n) :
    InBody form (ofForm form budget) s := by
  obtain ⟨node,found,body⟩ := inside
  obtain ⟨less,bound⟩ := (ofForm_frontier form budget).forward n s edge
  have atN := ofForm_node found
  have atS := ofForm_node (Array.getElem?_eq_getElem bound)
  refine ⟨_,Array.getElem?_eq_getElem bound,Nat.le_antisymm ?_ ?_⟩
  · have := formNodes_statement_le (mem_of_getElem? atS)
    exact this
  · obtain ⟨boundN,equalN⟩ := List.getElem?_eq_some_iff.mp atN
    obtain ⟨boundS,equalS⟩ := List.getElem?_eq_some_iff.mp atS
    have sorted := pairwise_iff_getElem.mp (formNodes_sorted form budget) n s boundN boundS less
    rw [equalN,equalS] at sorted
    exact body ▸ sorted

theorem mem_deadEdges {name : String} {k : Nat} :
    k ∈ deadEdges live node name ↔ ∃ s, node.succs[k]? = some s ∧ name ∉ live.into s := by
  simp [deadEdges,mem_zipIdx_iff_getElem?]

theorem deadEdges_nodup (live : LiveSets) (node : Node) (name : String) : (deadEdges live node name).Nodup := by
  have positions : (node.succs.zipIdx.map Prod.snd).Nodup := by
    rw [zipIdx_map_snd]
    exact nodup_range' 
  exact positions.sublist (filter_sublist.map _)

theorem mem_deathsAt {d : Death} :
    d ∈ deathsAt live n node ↔ d.name ∈ live.into n ∧ d.edges = deadEdges live node d.name ∧
      d.edges ≠ [] ∧ d.node = n ∧ d.statement = node.statement ∧
      d.conditional = decide (d.edges.length < node.succs.length) := by
  unfold deathsAt
  rw [mem_filterMap]
  constructor
  · rintro ⟨name,member,found⟩
    dsimp only at found
    split at found
    · cases found
    · next dying =>
      cases found
      exact ⟨member,rfl,by simpa using dying,rfl,rfl,rfl⟩
  · rintro ⟨member,edges,dying,rfl,statement,conditional⟩
    refine ⟨d.name,member,?_⟩
    dsimp only
    rw [← edges,if_neg (by simpa using dying),← statement,← conditional]

theorem mem_deaths {d : Death} :
    d ∈ deaths g live ↔ ∃ node, g[d.node]? = some node ∧ d ∈ deathsAt live d.node node := by
  unfold deaths
  rw [mem_flatMap]
  constructor
  · rintro ⟨⟨node,n⟩,member,dies⟩
    have found := mem_zipIdx_iff_getElem?.mp member
    rw [Array.getElem?_toList] at found
    obtain rfl := (mem_deathsAt.mp dies).2.2.2.1
    exact ⟨node,found,dies⟩
  · rintro ⟨node,found,dies⟩
    refine ⟨(node,d.node),mem_zipIdx_iff_getElem?.mpr ?_,dies⟩
    rw [Array.getElem?_toList]
    exact found

theorem exists_death {x : String} (found : g[n]? = some node) (alive : x ∈ live.into n)
    (dying : deadEdges live node x ≠ []) :
    ∃ d ∈ deaths g live, d.name = x ∧ d.node = n ∧ d.statement = node.statement ∧
      d.edges = deadEdges live node x := by
  let d : Death :=
    { name := x, node := n, statement := node.statement
      conditional := decide ((deadEdges live node x).length < node.succs.length)
      edges := deadEdges live node x }
  have listed : d ∈ deathsAt live n node := mem_deathsAt.mpr ⟨alive,rfl,dying,rfl,rfl,rfl⟩
  exact ⟨d,mem_deaths.mpr ⟨node,found,listed⟩,rfl,rfl,rfl,rfl⟩

end Flow

namespace Liveness

theorem ofForm_solves_of_pos {form : LetForm} {cap depth : Nat} (positive : 0 < cap) :
    (ofForm form cap depth).solution.live.Solves (ofForm form cap depth).graph := by
  apply solution_solves _ positive
  exact fun m s edge => ((ofForm_frontier form depth).forward m s edge).1

variable {form : LetForm} {cap depth : Nat}

variable {n branch : Nat} {x : String} {d : Death} {l : Liveness}

/-- The name is live before the node and dead along one of its edges. -/
def DiesAlong (l : Liveness) (x : String) (edge : Nat × Nat) : Prop :=
  x ∈ l.solution.live.into edge.1 ∧ ∃ s, (successors l.graph edge.1)[edge.2]? = some s ∧ x ∉ l.solution.live.into s

theorem ofForm_death (member : d ∈ (ofForm form cap depth).deaths) :
    ∃ node, (ofForm form cap depth).graph[d.node]? = some node ∧ d.statement = node.statement ∧ d.edges.Nodup ∧
      ∀ k ∈ d.edges, (ofForm form cap depth).DiesAlong d.name (d.node,k) := by
  obtain ⟨node,found,dies⟩ := mem_deaths.mp member
  obtain ⟨alive,edges,_,_,statement,_⟩ := mem_deathsAt.mp dies
  refine ⟨node,found,statement,edges ▸ deadEdges_nodup _ _ _,?_⟩
  intro k dead
  rw [edges] at dead
  obtain ⟨s,taken,gone⟩ := mem_deadEdges.mp dead
  exact ⟨alive,s,(successors_of_getElem? found).symm ▸ taken,gone⟩

end Liveness

end StagedLisp
