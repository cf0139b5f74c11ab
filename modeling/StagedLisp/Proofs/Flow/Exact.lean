import StagedLisp.Proofs.Flow.Use

/-! Liveness is exact: a name is live before a node if and only if a path leads from there to a use of
it with no definition on the way. The first round finds the live sets, so a second one changes
nothing, however large the form is. -/
namespace StagedLisp

namespace Flow

/-- A path leads from the node to a use of the name, and no node before the use defines it. -/
def UsedFrom (g : Graph) (x : String) (n : Nat) : Prop :=
  ∃ (path : List (Nat × Nat)) (last : Nat) (user : Node), Path g n path last ∧
    g[last]? = some user ∧ x ∈ user.uses ∧
    ∀ edge ∈ path, ∀ node, g[edge.1]? = some node → x ∉ node.defs

variable {g : Graph} {x : String} {n : Nat} {live : LiveSets}

theorem usedFrom_iff {node : Node} (found : g[n]? = some node) :
    UsedFrom g x n ↔ x ∈ node.uses ∨ (∃ s ∈ node.succs, UsedFrom g x s) ∧ x ∉ node.defs := by
  constructor
  · rintro ⟨path,last,user,walk,there,uses,clear⟩
    cases walk with
    | done =>
      rw [found,Option.some.injEq] at there
      exact .inl (there ▸ uses)
    | @step _ k s _ edges taken rest =>
      rw [successors_of_getElem? found] at taken
      refine .inr ⟨⟨s,List.mem_of_getElem? taken,edges,last,user,rest,there,uses,?_⟩,?_⟩
      · exact fun edge member => clear edge (.tail _ member)
      · exact clear (n,k) List.mem_cons_self node found
  · rintro (uses | ⟨⟨s,edge,path,last,user,walk,there,uses,clear⟩,kept⟩)
    · exact ⟨[],n,node,.done,found,uses,by simp⟩
    · obtain ⟨k,taken⟩ := List.mem_iff_getElem?.mp edge
      rw [← successors_of_getElem? found] at taken
      refine ⟨(n,k) :: path,last,user,.step taken walk,there,uses,?_⟩
      intro edge member other at'
      rcases List.mem_cons.mp member with rfl | member
      · rw [found,Option.some.injEq] at at'
        exact at' ▸ kept
      · exact clear edge member other at'

theorem not_usedFrom_outside (outside : g[n]? = none) : ¬ UsedFrom g x n := by
  rintro ⟨path,last,user,walk,there,_,_⟩
  cases walk with
  | done =>
    rw [outside] at there
    cases there
  | step taken _ =>
    rw [successors,outside] at taken
    cases taken

theorem LiveSets.Covers.outside (covers : live.Covers g) (outside : g[n]? = none) :
    live.into n = [] ∧ live.outOf n = [] := by
  have beyond : g.size ≤ n := Array.getElem?_eq_none_iff.mp outside
  constructor
  · rw [into,Array.getD_eq_getD_getElem?,Array.getElem?_eq_none (covers.1 ▸ beyond)]
    rfl
  · rw [outOf,Array.getD_eq_getD_getElem?,Array.getElem?_eq_none (covers.2 ▸ beyond)]
    rfl

section

variable (solves : live.Solves g)

include solves

theorem LiveSets.Solves.mem_outOf : x ∈ live.outOf n ↔ ∃ s ∈ successors g n, x ∈ live.into s := by
  cases found : g[n]? with
  | none => simp [successors,found,(solves.covers.outside found).2]
  | some node => rw [(solves.balanced n node found).1,mem_liveAfter,successors_of_getElem? found]

theorem visit_solved (changed : Bool) (n : Nat) : visit g (live,changed) n = (live,changed) := by
  unfold visit
  cases found : g[n]? with
  | none => rfl
  | some node =>
    obtain ⟨after,before⟩ := solves.balanced n node found
    rw [after] at before
    simp [before,after]

theorem round_solved : round g live = (live,false) := by
  unfold round
  induction (List.range g.size).reverse with
  | nil => rfl
  | cons n nodes ih => rw [List.foldl_cons,visit_solved solves,ih]

theorem solve_solved (cap rounds : Nat) : solve g (cap + 1) rounds live = ⟨live,rounds + 1,true⟩ := by
  simp [solve,round_solved solves]

end

theorem solve_converges (forward : ∀ m s, s ∈ successors g m → m < s) (cap : Nat) :
    (solve g (cap + 2) 0 (.empty g)).converged = true ∧ (solve g (cap + 2) 0 (.empty g)).rounds ≤ 2 := by
  have first := round_solves forward _ (covers_empty g)
  rw [solve]
  dsimp only
  split
  · rw [solve_solved first]
    exact ⟨rfl,le_rfl⟩
  · exact ⟨rfl,Nat.le_succ _⟩

end Flow

namespace Liveness

theorem mem_into_iff_usedFrom {form : LetForm} {cap depth : Nat} {x : String} (positive : 0 < cap)
    (n : Nat) : x ∈ (ofForm form cap depth).solution.live.into n ↔
      Flow.UsedFrom (ofForm form cap depth).graph x n := by
  induction n using Flow.forward_induction form depth with
  | step n ih =>
    cases found : (ofForm form cap depth).graph[n]? with
    | none =>
      rw [((ofForm_solves_of_pos positive).covers.outside found).1]
      exact iff_of_false List.not_mem_nil (Flow.not_usedFrom_outside found)
    | some node =>
      rw [mem_into positive found,Flow.usedFrom_iff found]
      have later : (∃ s ∈ node.succs, x ∈ (ofForm form cap depth).solution.live.into s) ↔
          ∃ s ∈ node.succs, Flow.UsedFrom (ofForm form cap depth).graph x s := by
        apply exists_congr
        intro s
        apply and_congr_right
        intro edge
        apply ih
        rwa [← Flow.successors_of_getElem? found] at edge
      rw [later]

/-- The live sets of a form are exact, and two rounds settle them. -/
theorem live_iff_used (form : LetForm) (depth cap : Nat) (positive : 1 ≤ cap) :
    let l := ofForm form cap depth
    (∀ n x, x ∈ l.solution.live.into n ↔ Flow.UsedFrom l.graph x n) ∧
    (∀ n x, x ∈ l.solution.live.outOf n ↔
      ∃ s ∈ Flow.successors l.graph n, x ∈ l.solution.live.into s) ∧
    (2 ≤ cap → l.solution.converged = true ∧ l.solution.rounds ≤ 2) := by
  intro l
  refine ⟨fun n x => mem_into_iff_usedFrom positive n,?_,?_⟩
  · exact fun n x => (ofForm_solves_of_pos positive).mem_outOf
  · intro enough
    obtain ⟨k,rfl⟩ : ∃ k, cap = k + 2 := ⟨cap - 2,by omega⟩
    have forward := (Flow.ofForm_frontier form depth).forward
    exact Flow.solve_converges (fun m s edge => (forward m s edge).1) k

/-- The form `(letrec ((x (if y 1 2)) (y x)) y)`, which uses `y` both before and after it is
defined. -/
def usedTwice : LetForm where
  kind := .recursive
  bindings := [
    ⟨"x",.pair 0 (.sym "if") (.pair 1 (.sym "y") (.pair 2 (.int 1) (.pair 3 (.int 2) .nil)))⟩,
    ⟨"y",.sym "x"⟩]
  body := .sym "y"

/-- The definition of `x` stands between the first node and the use of `x`. -/
theorem usedTwice_live :
    let l := ofForm usedTwice 2 256
    (1 ≤ 2 ∧ "y" ∈ l.solution.live.into 0 ∧ "x" ∉ l.solution.live.into 0) ∧
    Flow.UsedFrom l.graph "y" 0 ∧ ¬ Flow.UsedFrom l.graph "x" 0 ∧
    (∀ x, x ∈ l.solution.live.outOf 0 ↔
      ∃ s ∈ Flow.successors l.graph 0, x ∈ l.solution.live.into s) ∧
    l.solution.converged = true ∧ l.solution.rounds ≤ 2 := by
  intro l
  obtain ⟨into,outOf,converges⟩ := live_iff_used usedTwice 256 2 (by decide)
  have live : "y" ∈ l.solution.live.into 0 := by decide +kernel
  have dead : "x" ∉ l.solution.live.into 0 := by decide +kernel
  exact ⟨⟨by decide,live,dead⟩,(into 0 "y").mp live,fun used => dead ((into 0 "x").mpr used),
    outOf 0,converges (by decide)⟩

end Liveness

end StagedLisp
