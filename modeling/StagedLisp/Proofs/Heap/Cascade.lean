import Mathlib.Data.List.Flatten
import Mathlib.Data.List.Perm.Subperm
import StagedLisp.Proofs.Heap.Accounts

/-! Cascades of dropped references. What is counted falls when as many references to it have been
dropped as it counts, and then the references that it holds are dropped too. A `Stage` is what is known
in the middle of this; in the end the same things have fallen, whatever the order was. -/
namespace StagedLisp.Cascade

open List

variable {counts : Nat → Option Nat} {holds : Nat → List Nat} {refs todo gone : List Nat}

/-- The references that are to be dropped in all: `refs`, and those held by what has fallen. -/
def due (holds : Nat → List Nat) (refs gone : List Nat) : List Nat := refs ++ gone.flatMap holds

/-- How many references to `x` have been dropped, if `todo` are left. -/
def dropped (holds : Nat → List Nat) (refs todo gone : List Nat) (x : Nat) : Nat :=
  (due holds refs gone).count x - todo.count x

/-- What falls when `refs` are dropped: it is counted no more often than they and others that fall
refer to it. -/
inductive Falls (counts : Nat → Option Nat) (holds : Nat → List Nat) (refs : List Nat) : Nat → Prop
  | intro {x n} (gone : List Nat) (distinct : gone.Nodup)
      (fallen : ∀ y ∈ gone, Falls counts holds refs y) (counted : counts x = some n)
      (referred : 0 < (due holds refs gone).count x) (enough : n ≤ (due holds refs gone).count x) :
      Falls counts holds refs x

/-- After `gone` have fallen, and with `todo` left to be dropped, whatever else is counted either has
been dropped less often than it counts or not at all. -/
structure Stage (counts : Nat → Option Nat) (holds : Nat → List Nat) (refs todo gone : List Nat) :
    Prop where
  distinct : gone.Nodup
  fallen : ∀ x ∈ gone, Falls counts holds refs x
  within : ∀ x, todo.count x ≤ (due holds refs gone).count x
  standing : ∀ x n, x ∉ gone → counts x = some n →
    dropped holds refs todo gone x < n ∨ dropped holds refs todo gone x = 0

theorem count_due (x : Nat) :
    (due holds refs gone).count x = refs.count x + (gone.flatMap holds).count x := count_append

theorem count_due_cons (x y : Nat) : (due holds refs (y :: gone)).count x =
    (due holds refs gone).count x + (holds y).count x := by
  simp only [count_due,flatMap_cons,count_append]
  omega

theorem count_due_le (holds : Nat → List Nat) (refs : List Nat) {all : List Nat}
    (distinct : gone.Nodup) (among : gone ⊆ all) (x : Nat) :
    (due holds refs gone).count x ≤ (due holds refs all).count x := by
  obtain ⟨some,same,sub⟩ := distinct.subperm among
  have := (sub.flatMap holds).count_le x
  have := (same.flatMap_right holds).count_eq x
  rw [count_due,count_due]
  omega

theorem count_due_holders (holds : Nat → List Nat) (refs all : List Nat) (x : Nat) :
    (due holds refs (all.filter fun y => decide (x ∈ holds y))).count x = (due holds refs all).count x := by
  induction all with
  | nil => rfl
  | cons y all ih =>
    by_cases held : x ∈ holds y
    · simp [held,count_due_cons,ih]
    · simp [held,count_due_cons,ih,count_eq_zero.mpr held]

theorem dropped_owe (x y : Nat) :
    dropped holds (x :: refs) (x :: todo) gone y = dropped holds refs todo gone y := by
  simp only [dropped,count_due,Heap.count_reference]
  omega

theorem dropped_fall (x y : Nat) :
    dropped holds refs (holds x ++ todo) (x :: gone) y = dropped holds refs todo gone y := by
  simp only [dropped,count_due_cons,count_append]
  omega

theorem Falls.mono {refs' : List Nat} (more : ∀ x, refs.count x ≤ refs'.count x) {x : Nat}
    (falls : Falls counts holds refs x) : Falls counts holds refs' x := by
  induction falls with
  | @intro x n gone distinct _ counted referred enough ih =>
    have := more x
    simp only [count_due] at referred enough
    exact .intro gone distinct ih counted (by rw [count_due]; omega) (by rw [count_due]; omega)

namespace Stage

variable {x n : Nat}

theorem start : Stage counts holds [] [] [] :=
  ⟨nodup_nil,by simp,by simp,fun _ _ _ _ => .inr rfl⟩

theorem owe (stage : Stage counts holds refs todo gone) (x : Nat) :
    Stage counts holds (x :: refs) (x :: todo) gone := by
  refine ⟨stage.distinct,?_,?_,?_⟩
  · intro y member
    refine (stage.fallen y member).mono fun z => ?_
    rw [Heap.count_reference]
    omega
  · intro y
    have := stage.within y
    simp only [count_due,Heap.count_reference] at *
    omega
  · simpa only [dropped_owe] using stage.standing

theorem perm {todo' : List Nat} (stage : Stage counts holds refs todo gone)
    (same : todo.Perm todo') : Stage counts holds refs todo' gone := by
  obtain ⟨distinct,fallen,within,standing⟩ := stage
  simp only [dropped,same.count_eq] at within standing
  exact ⟨distinct,fallen,within,standing⟩

section

variable (stage : Stage counts holds refs (x :: todo) gone)

include stage

theorem referred : todo.count x < (due holds refs gone).count x := by
  have := stage.within x
  rw [count_cons_self] at this
  omega

theorem dropped_cons (y : Nat) : dropped holds refs todo gone y =
      dropped holds refs (x :: todo) gone y + if y = x then 1 else 0 := by
  have := stage.within y
  simp only [dropped,Heap.count_reference] at *
  omega

theorem keep (stands : x ∉ gone → ∀ n, counts x = some n → dropped holds refs todo gone x < n) :
    Stage counts holds refs todo gone := by
  refine ⟨stage.distinct,stage.fallen,?_,?_⟩
  · intro y
    have := stage.within y
    rw [Heap.count_reference] at this
    omega
  · intro y n left counted
    by_cases same : y = x
    · subst same
      exact .inl (stands left n counted)
    · have := stage.standing y n left counted
      rwa [stage.dropped_cons y,if_neg same]

theorem fall (left : x ∉ gone) (counted : counts x = some n) (last : n ≤ dropped holds refs todo gone x) :
    Stage counts holds refs (holds x ++ todo) (x :: gone) := by
  refine ⟨nodup_cons.mpr ⟨left,stage.distinct⟩,?_,?_,?_⟩
  · intro y member
    rcases mem_cons.mp member with rfl | before
    · have := stage.referred
      exact .intro gone stage.distinct stage.fallen counted (by omega) (Nat.le_trans last (Nat.sub_le _ _))
    · exact stage.fallen y before
  · intro y
    have := stage.within y
    rw [Heap.count_reference] at this
    rw [count_due_cons,count_append]
    omega
  · intro y m left counted
    rw [mem_cons,not_or] at left
    have := stage.standing y m left.2 counted
    rwa [dropped_fall,stage.dropped_cons y,if_neg left.1]

end

theorem mem_gone (stage : Stage counts holds refs [] gone) : x ∈ gone ↔ Falls counts holds refs x := by
  refine ⟨stage.fallen x,?_⟩
  intro falls
  induction falls with
  | @intro x n holders distinct _ counted referred enough ih =>
    by_contra left
    -- What the holders refer to has been dropped, as they are among the fallen.
    have := count_due_le holds refs distinct ih x
    have := stage.standing x n left counted
    simp only [dropped,count_nil] at this
    omega

/-- What has fallen in the end does not depend on the order of the references. -/
theorem gone_perm {refs' gone' : List Nat} (stage : Stage counts holds refs [] gone)
    (stage' : Stage counts holds refs' [] gone') (same : refs.Perm refs') : gone.Perm gone' := by
  rw [perm_ext_iff_of_nodup stage.distinct stage'.distinct]
  intro x
  rw [stage.mem_gone,stage'.mem_gone]
  exact ⟨Falls.mono fun y => Nat.le_of_eq (same.count_eq y),
    Falls.mono fun y => Nat.le_of_eq (same.symm.count_eq y)⟩

section Unheld

variable (counted : counts x = some n) (last : n ≤ 1)

include counted last

theorem falls_self : Falls counts holds [x] x :=
  .intro [] nodup_nil (by simp) counted (by simp [due]) (by simpa [due] using last)

variable (unheld : ∀ y, x ∉ holds y)

include unheld

theorem falls_with {y : Nat} (falls : Falls counts holds (holds x) y) : Falls counts holds [x] y ∧ y ≠ x := by
  have first : Falls counts holds [x] x := falls_self counted last
  induction falls with
  | @intro y m gone distinct _ counted referred enough ih =>
    have left : x ∉ gone := fun member => (ih x member).2 rfl
    have more : (due holds [x] (x :: gone)).count y = [x].count y + (due holds (holds x) gone).count y := by
      simp only [due,flatMap_cons,count_append]
    refine ⟨.intro (x :: gone) (nodup_cons.mpr ⟨left,distinct⟩) ?_ counted (by omega) (by omega),?_⟩
    · exact forall_mem_cons.mpr ⟨first,fun z member => (ih z member).1⟩
    · rintro rfl
      have absent : (due holds (holds y) gone).count y = 0 := by
        simp [count_due,count_eq_zero,unheld]
      omega

theorem of_held (stage : Stage counts holds (holds x) [] gone) : Stage counts holds [x] [] (x :: gone) := by
  have falls {y : Nat} (member : y ∈ gone) := falls_with counted last unheld (stage.fallen y member)
  refine ⟨nodup_cons.mpr ⟨fun member => (falls member).2 rfl,stage.distinct⟩,?_,by simp,?_⟩
  · exact forall_mem_cons.mpr ⟨falls_self counted last,fun y member => (falls member).1⟩
  · intro y m left counted
    rw [mem_cons,not_or] at left
    have before := stage.standing y m left.2 counted
    simpa [dropped,due,count_cons_of_ne (Ne.symm left.1)] using before

end Unheld

end Stage

/-- All that is counted is listed, and counts the references in `refs` and from the list. -/
structure Exact (counts : Nat → Option Nat) (holds : Nat → List Nat) (refs all : List Nat) :
    Prop where
  listed : ∀ x n, counts x = some n → x ∈ all
  count : ∀ x n, counts x = some n → n = (due holds refs all).count x

namespace Exact

variable {all : List Nat} {x n : Nat}

variable (exact : Exact counts holds refs all)

include exact

theorem gone_subset (stage : Stage counts holds refs todo gone) : gone ⊆ all := by
  intro y member
  cases stage.fallen y member with
  | intro _ _ _ counted => exact exact.listed y _ counted

theorem holder_gone (stage : Stage counts holds refs todo gone) (counted : counts x = some n)
    (last : n ≤ dropped holds refs todo gone x) {y : Nat} (member : y ∈ all) (held : x ∈ holds y) :
    y ∈ gone := by
  by_contra left
  have fewer := count_due_le holds refs (nodup_cons.mpr ⟨left,stage.distinct⟩)
    (cons_subset.mpr ⟨member,exact.gone_subset stage⟩) x
  have positive := count_pos_iff.mpr held
  rw [count_due_cons,← exact.count x n counted] at fewer
  unfold dropped at last
  omega

theorem falls (distinct : all.Nodup) (counted : ∀ x ∈ all, ∃ n, counts x = some n ∧ 0 < n)
    (ordered : ∀ y ∈ all, ∀ x ∈ holds y, x < y) {bound : Nat} (below : ∀ x ∈ all, x < bound)
    (member : x ∈ all) : Falls counts holds refs x := by
  -- The induction goes down from the bound, so that the holders come first.
  induction left : bound - x using Nat.strongRecOn generalizing x with
  | ind left ih =>
    obtain ⟨n,counts,positive⟩ := counted x member
    have only := count_due_holders holds refs all x
    rw [exact.count x n counts,← only] at positive
    refine .intro _ (distinct.filter _) ?_ counts positive ?_
    · intro y holder
      obtain ⟨listed,held⟩ := mem_filter.mp holder
      have after := ordered y listed x (by simpa using held)
      have := below y listed
      exact ih (bound - y) (by omega) listed rfl
    · rw [only]
      exact Nat.le_of_eq (exact.count x n counts)

end Exact

end StagedLisp.Cascade
