import Mathlib.Data.String.Basic
import StagedLisp.Flow.Liveness
import StagedLisp.Proofs.Flow.Graph

/-! The live sets of a graph whose edges lead forward. A round goes from the last node to the first,
so one round already solves the equations of liveness, whatever it starts from. -/
namespace StagedLisp

open List

namespace NameSet

variable {x : String} {a b : NameSet} {names : List String}

@[simp] theorem mem_insert {name : String} : x ∈ insert name a ↔ x = name ∨ x ∈ a := by
  induction a with
  | nil => simp [insert]
  | cons first rest ih =>
    rw [insert]
    split
    · simp
    split
    · next same => simp [same]
    · simp only [mem_cons,ih]
      tauto

@[simp] theorem mem_union : x ∈ union a b ↔ x ∈ a ∨ x ∈ b := by
  unfold union
  induction a with
  | nil => simp
  | cons first rest ih =>
    rw [foldr_cons,mem_insert,ih,mem_cons,or_assoc]

@[simp] theorem mem_ofList : x ∈ ofList names ↔ x ∈ names := by
  have := mem_union (x := x) (a := names) (b := [])
  simpa [union,ofList] using this

@[simp] theorem mem_without : x ∈ without a names ↔ x ∈ a ∧ x ∉ names := by
  simp [without]

def Increasing (a : NameSet) : Prop := a.Pairwise (· < ·)

theorem Increasing.nodup (increasing : Increasing a) : a.Nodup := by
  apply List.Pairwise.imp _ increasing
  intro x y less same
  subst same
  exact String.lt_irrefl x less

theorem Increasing.insert (increasing : Increasing a) (name : String) : Increasing (a.insert name) := by
  induction a with
  | nil => exact pairwise_singleton _ _
  | cons first rest ih =>
    obtain ⟨least,tail⟩ := pairwise_cons.mp increasing
    rw [NameSet.insert]
    split
    · next less =>
      refine pairwise_cons.mpr ⟨?_,increasing⟩
      exact forall_mem_cons.mpr ⟨less,fun x member => String.lt_trans less (least x member)⟩
    split
    · exact increasing
    · next notLess notSame =>
      refine pairwise_cons.mpr ⟨?_,ih tail⟩
      intro x member
      rcases mem_insert.mp member with rfl | member
      · exact (lt_trichotomy x first).resolve_left notLess |>.resolve_left notSame
      · exact least x member

theorem Increasing.union (increasing : Increasing b) (a : NameSet) : Increasing (a.union b) := by
  unfold NameSet.union
  induction a with
  | nil => exact increasing
  | cons first rest ih => exact ih.insert first

theorem Increasing.without (increasing : Increasing a) (names : List String) :
    Increasing (a.without names) := increasing.filter _

end NameSet

namespace Flow

variable {live : LiveSets} {node : Node} {x : String} {after : NameSet} {g : Graph} {state : LiveSets × Bool}

theorem mem_liveAfter : x ∈ liveAfter live node ↔ ∃ s ∈ node.succs, x ∈ live.into s := by
  have general (succs : List Nat) (names : NameSet) :
      x ∈ succs.foldl (fun names s => (live.into s).union names) names ↔
        x ∈ names ∨ ∃ s ∈ succs, x ∈ live.into s := by
    induction succs generalizing names with
    | nil => simp
    | cons s succs ih =>
      simp only [foldl_cons,ih,NameSet.mem_union,exists_mem_cons_iff]
      tauto
  simpa [liveAfter] using general node.succs []

theorem mem_liveBefore : x ∈ liveBefore node after ↔ x ∈ node.uses ∨ x ∈ after ∧ x ∉ node.defs := by
  simp [liveBefore]

theorem liveAfter_increasing (live : LiveSets) (node : Node) : (liveAfter live node).Increasing := by
  have general (succs : List Nat) (names : NameSet) (start : names.Increasing) :
      NameSet.Increasing (succs.foldl (fun names s => (live.into s).union names) names) := by
    induction succs generalizing names with
    | nil => exact start
    | cons s succs ih => exact ih _ (start.union _)
  exact general _ _ .nil

theorem liveBefore_increasing (increasing : after.Increasing) : (liveBefore node after).Increasing :=
  (increasing.without _).union _

theorem liveAfter_congr {other : LiveSets} (same : ∀ s ∈ node.succs, live.into s = other.into s) :
    liveAfter live node = liveAfter other node := by
  apply foldl_ext
  intro names s member
  rw [same s member]

def LiveSets.Covers (live : LiveSets) (g : Graph) : Prop :=
  live.before.size = g.size ∧ live.after.size = g.size

def Balanced (g : Graph) (live : LiveSets) (n : Nat) : Prop :=
  ∀ node, g[n]? = some node → live.outOf n = liveAfter live node ∧ live.into n = liveBefore node (live.outOf n)

theorem covers_empty (g : Graph) : (LiveSets.empty g).Covers g := by
  simp [LiveSets.Covers,LiveSets.empty]

@[simp] theorem into_empty (g : Graph) (n : Nat) : (LiveSets.empty g).into n = [] := by
  rw [LiveSets.empty,LiveSets.into,Array.getD_eq_getD_getElem?,Array.getElem?_replicate]
  split <;> rfl

theorem visit_covers (n : Nat) (covers : state.1.Covers g) : (visit g state n).1.Covers g := by
  unfold visit
  split
  · exact covers
  · dsimp only
    split
    · exact covers
    · simpa [LiveSets.Covers] using covers

theorem visit_other {m n : Nat} (other : m ≠ n) : (visit g state n).1.into m = state.1.into m ∧
      (visit g state n).1.outOf m = state.1.outOf m := by
  unfold visit
  split
  · exact ⟨rfl,rfl⟩
  · dsimp only
    split
    · exact ⟨rfl,rfl⟩
    · simp [LiveSets.into,LiveSets.outOf,Array.getD_eq_getD_getElem?,other.symm]

theorem visit_self {n : Nat} (covers : state.1.Covers g) (found : g[n]? = some node) :
    (visit g state n).1.outOf n = liveAfter state.1 node ∧
      (visit g state n).1.into n = liveBefore node (liveAfter state.1 node) := by
  have bound : n < g.size := (Array.getElem?_eq_some_iff.mp found).1
  have boundBefore : n < state.1.before.size := covers.1 ▸ bound
  have boundAfter : n < state.1.after.size := covers.2 ▸ bound
  unfold visit
  rw [found]
  dsimp only
  split
  · next same => exact ⟨same.2.symm,same.1.symm⟩
  · simp [LiveSets.into,LiveSets.outOf,Array.getD_eq_getD_getElem?,boundBefore,boundAfter]

theorem visit_balanced {n : Nat} (forward : ∀ m s, s ∈ successors g m → m < s)
    (covers : state.1.Covers g) (later : ∀ m, n < m → Balanced g state.1 m) :
    ∀ m, n ≤ m → Balanced g (visit g state n).1 m := by
  intro m bound node found
  have unmoved : liveAfter (visit g state n).1 node = liveAfter state.1 node := by
    apply liveAfter_congr
    intro s member
    have := forward m s (mem_successors.mpr ⟨node,found,member⟩)
    exact (visit_other (by omega)).1
  by_cases here : m = n
  · subst here
    obtain ⟨out,into⟩ := visit_self covers found
    rw [unmoved,into,out]
    exact ⟨rfl,rfl⟩
  · obtain ⟨into,out⟩ := @visit_other g state m n here
    obtain ⟨after,before⟩ := later m (by omega) node found
    rw [unmoved,into,out]
    exact ⟨after,before⟩

structure LiveSets.Solves (live : LiveSets) (g : Graph) : Prop where
  covers : live.Covers g
  balanced : ∀ n, Balanced g live n

theorem visits_solve (forward : ∀ m s, s ∈ successors g m → m < s) (count : Nat)
    (state : LiveSets × Bool) (covers : state.1.Covers g)
    (later : ∀ m, count ≤ m → Balanced g state.1 m) :
    ((List.range count).reverse.foldl (visit g) state).1.Solves g := by
  induction count generalizing state with
  | zero => exact ⟨covers,fun m => later m (Nat.zero_le m)⟩
  | succ count ih =>
    rw [range_succ,reverse_append,reverse_singleton,singleton_append,foldl_cons]
    exact ih _ (visit_covers count covers) (visit_balanced forward covers fun m bound => later m bound)

theorem round_solves (forward : ∀ m s, s ∈ successors g m → m < s) (live : LiveSets)
    (covers : live.Covers g) : (round g live).1.Solves g := by
  apply visits_solve forward g.size (live,false) covers
  intro m bound node found
  have := (Array.getElem?_eq_some_iff.mp found).1
  omega

theorem solve_solves (forward : ∀ m s, s ∈ successors g m → m < s) (cap rounds : Nat)
    (live : LiveSets) (solves : live.Solves g) : (solve g cap rounds live).live.Solves g := by
  induction cap generalizing rounds live with
  | zero => exact solves
  | succ cap ih =>
    have next := round_solves forward live solves.covers
    rw [solve]
    dsimp only
    split
    · exact ih _ _ next
    · exact next

theorem solution_solves (forward : ∀ m s, s ∈ successors g m → m < s) {cap : Nat}
    (positive : 0 < cap) : (solve g cap 0 (.empty g)).live.Solves g := by
  obtain ⟨cap,rfl⟩ : ∃ k, cap = k + 1 := ⟨cap - 1,by omega⟩
  have next := round_solves forward _ (covers_empty g)
  rw [solve]
  dsimp only
  split
  · exact solve_solves forward _ _ _ next
  · exact next

theorem LiveSets.Solves.nodup (solves : live.Solves g) (n : Nat) : (live.into n).Nodup := by
  by_cases bound : n < g.size
  · obtain ⟨out,into⟩ := solves.balanced n _ (Array.getElem?_eq_getElem bound)
    rw [into,out]
    exact (liveBefore_increasing (liveAfter_increasing live _)).nodup
  · have outside : live.before.size ≤ n := by
      rw [solves.covers.1]
      omega
    rw [into,Array.getD_eq_getD_getElem?,Array.getElem?_eq_none outside]
    exact .nil

theorem LiveSets.Solves.flow (solves : live.Solves g) {n s : Nat} (found : g[n]? = some node)
    (edge : s ∈ node.succs) (alive : x ∈ live.into s) (kept : x ∉ node.defs) : x ∈ live.into n := by
  obtain ⟨out,into⟩ := solves.balanced n node found
  rw [into,out]
  exact mem_liveBefore.mpr (.inr ⟨mem_liveAfter.mpr ⟨s,edge,alive⟩,kept⟩)

end Flow

end StagedLisp
