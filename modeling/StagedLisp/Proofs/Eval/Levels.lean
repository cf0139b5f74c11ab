import Mathlib.Logic.Relation
import StagedLisp.Eval.Basic

/-! The levels of a store, and which of them are above one another. -/
namespace StagedLisp

open Array

def Store.levelAt (s : Store) (i : Nat) : Level := s.levels.getD i { env := [] }

section Changes

variable (s : Store) (i j : Nat)

theorem Store.levelAt_push (l : Level) : Store.levelAt { s with levels := s.levels.push l } j =
      if j = s.levels.size then l else s.levelAt j := by
  simp only [levelAt,getD_eq_getD_getElem?,getElem?_push]
  split <;> rfl

theorem Store.levelAt_modify (f : Level → Level) (inside : i < s.levels.size) :
    Store.levelAt { s with levels := s.levels.modify i f } j = if i = j then f (s.levelAt j) else s.levelAt j := by
  simp only [levelAt,getD_eq_getD_getElem?,getElem?_modify]
  split
  · next same =>
    subst same
    simp [inside]
  · rfl

theorem Store.levelAt_update (f : Level → Level) : Store.levelAt { s with levels := s.levels.modify i f } j =
      if j = i ∧ i < s.levels.size then f (s.levelAt i) else s.levelAt j := by
  by_cases inside : i < s.levels.size
  · rw [levelAt_modify s i j f inside]
    by_cases same : i = j
    · rw [if_pos same,if_pos ⟨same.symm,inside⟩,same]
    · rw [if_neg same,if_neg fun both => same both.1.symm]
  · rw [if_neg fun both => inside both.2]
    unfold levelAt
    rw [getD_eq_getD_getElem?,getD_eq_getD_getElem?,getElem?_modify]
    split
    · next same =>
      rw [← same,getElem?_eq_none (Nat.not_lt.mp inside)]
      rfl
    · rfl

variable {s i}

theorem Store.levelAt_congr {t : Store} (same : t.levels = s.levels) (i : Nat) : t.levelAt i = s.levelAt i := by
  rw [levelAt,same,levelAt]

theorem Store.levelAt_beyond (beyond : s.levels.size ≤ i) : s.levelAt i = { env := [] } := by
  rw [levelAt,getD_eq_getD_getElem?,getElem?_eq_none beyond]
  rfl

end Changes

def Store.Above (s : Store) : Nat → Nat → Prop :=
  Relation.TransGen fun i p => (s.levelAt i).parent = some p

/-- The levels above one another are there, and none is above itself. -/
structure Store.Tower (s : Store) : Prop where
  inside : ∀ i p, (s.levelAt i).parent = some p → p < s.levels.size
  founded : ∀ i, ¬ s.Above i i

/-- The levels that evaluation at a level reaches without changing it: those above and new ones. -/
def Store.Reaches (s : Store) (a i : Nat) : Prop := s.levels.size ≤ i ∨ s.Above a i

theorem Store.Reaches.above {s : Store} {a i p : Nat} (reached : s.Reaches a i)
    (parent : (s.levelAt i).parent = some p) : s.Above a p := by
  rcases reached with beyond | above
  · rw [Store.levelAt_beyond beyond] at parent
    cases parent
  · exact above.tail parent

namespace Eval

variable {α β : Type} {x : Eval α} {f : α → Eval β} {s s' : Store}

theorem run_bind_ok {a : α} (ran : x.run.run s = (.ok a,s')) : (x >>= f).run.run s = (f a).run.run s' := by
  simp only [ExceptT.run_bind,StateT.run_bind]
  rw [ran]
  rfl

theorem run_bind_error {e : Error} (ran : x.run.run s = (.error e,s')) : (x >>= f).run.run s = (.error e,s') := by
  simp only [ExceptT.run_bind,StateT.run_bind]
  rw [ran]
  rfl

end Eval

end StagedLisp
