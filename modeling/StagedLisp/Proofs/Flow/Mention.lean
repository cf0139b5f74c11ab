import StagedLisp.Proofs.Flow.Use
import StagedLisp.Proofs.Form.Lookup

/-! The last statement a name is live in is the last one that mentions it, as long as the analyses look
at all of the form. -/
namespace StagedLisp

structure LetForm.MentionsAt (form : LetForm) (x : String) (j : Nat) : Prop where
  inside : j ≤ form.bodyIndex
  visible : x ∈ form.visibleIn j
  free : x ∈ freeVariables (form.statement j)

/-- The search for free variables and the control-flow graph leave out no part of a statement. -/
structure LetForm.SeenWithin (form : LetForm) (depth : Nat) : Prop where
  nested : ∀ j ≤ form.bodyIndex, NestedWithin walkLimit (form.statement j)
  branches : ∀ j ≤ form.bodyIndex, Flow.BranchesWithin depth (form.statement j)

namespace Liveness

variable {form : LetForm} {cap depth : Nat} {x : String}

theorem lastStatement_ge_mention (positive : 0 < cap) (seen : form.SeenWithin depth) {j : Nat}
    (mentions : form.MentionsAt x j) :
    ∃ m, (ofForm form cap depth).lastStatement? x = some m ∧ j ≤ m :=
  lastStatement_of_mention positive le_rfl (.inr (seen.branches j mentions.inside))
    mentions.inside mentions.visible mentions.free

theorem mention_ge_lastStatement (positive : 0 < cap) (seen : form.SeenWithin depth) {m : Nat}
    (last : (ofForm form cap depth).lastStatement? x = some m) :
    ∃ j, m ≤ j ∧ form.MentionsAt x j := by
  obtain ⟨j,later,inside,visible,node,member,uses⟩ := use_of_lastStatement positive last
  obtain ⟨_,mentioned⟩ := Flow.regionNodes_mentions (seen.branches j inside) member uses
  exact ⟨j,later,inside,visible,(seen.nested j inside).mem_freeNames mentioned⟩

/-- The last statement a name is live in is the last of those that see and mention it. -/
theorem lastStatement_iff_last_mention (form : LetForm) {cap depth : Nat} (positive : 1 ≤ cap)
    (seen : form.SeenWithin depth) (x : String) :
    let l := ofForm form cap depth
    (∀ k, l.lastStatement? x = some k ↔
      form.MentionsAt x k ∧ ∀ j, form.MentionsAt x j → j ≤ k) ∧
    (l.lastStatement? x = none ↔ ∀ j, ¬ form.MentionsAt x j) := by
  intro l
  have bound {k : Nat} (last : l.lastStatement? x = some k) {j : Nat}
      (mentions : form.MentionsAt x j) : j ≤ k := by
    obtain ⟨m,known,before⟩ := lastStatement_ge_mention positive seen mentions
    cases last.symm.trans known
    exact before
  refine ⟨fun k => ⟨fun last => ?_,fun ⟨mentions,latest⟩ => ?_⟩,?_,?_⟩
  · obtain ⟨j,after,mentions⟩ := mention_ge_lastStatement positive seen last
    have same : j = k := (bound last mentions).antisymm after
    exact ⟨same ▸ mentions,fun j => bound last⟩
  · obtain ⟨m,last,before⟩ := lastStatement_ge_mention positive seen mentions
    obtain ⟨j,after,other⟩ := mention_ge_lastStatement positive seen last
    have same : m = k := (after.trans (latest j other)).antisymm before
    exact same ▸ last
  · intro none j mentions
    obtain ⟨m,last,_⟩ := lastStatement_ge_mention positive seen mentions
    cases none.symm.trans last
  · intro silent
    cases last : l.lastStatement? x with
    | none => rfl
    | some m =>
      obtain ⟨j,_,mentions⟩ := mention_ge_lastStatement positive seen last
      exact absurd mentions (silent j)

/-- The form `(letrec ((f (lambda (n) (if n (f n) g))) (g 5)) (if g (if 1 2 g) 3))`. -/
def mentionedEarly : LetForm where
  kind := .recursive
  bindings := [
    ⟨"f",.pair 0 (.sym "lambda") (.pair 1 (.pair 2 (.sym "n") .nil) (.pair 3
      (.pair 4 (.sym "if") (.pair 5 (.sym "n") (.pair 6
        (.pair 7 (.sym "f") (.pair 8 (.sym "n") .nil)) (.pair 9 (.sym "g") .nil)))) .nil))⟩,
    ⟨"g",.int 5⟩]
  body := .pair 10 (.sym "if") (.pair 11 (.sym "g") (.pair 12
    (.pair 13 (.sym "if") (.pair 14 (.int 1) (.pair 15 (.int 2) (.pair 16 (.sym "g") .nil))))
    (.pair 17 (.int 3) .nil)))

/-- The procedure `f` is mentioned last in its own initialiser, and `g` in a branch of the body. -/
theorem mentionedEarly_last :
    let l := ofForm mentionedEarly 1 3
    mentionedEarly.SeenWithin 3 ∧
      (l.lastStatement? "f" = some 0 ∧ mentionedEarly.MentionsAt "f" 0 ∧
        ∀ j, mentionedEarly.MentionsAt "f" j → j ≤ 0) ∧
      (l.lastStatement? "g" = some 2 ∧ mentionedEarly.MentionsAt "g" 2 ∧
        ∀ j, mentionedEarly.MentionsAt "g" j → j ≤ 2) ∧
      l.lastStatement? "n" = none ∧ ∀ j, ¬ mentionedEarly.MentionsAt "n" j := by
  intro l
  have seen : mentionedEarly.SeenWithin 3 := ⟨by decide +kernel,by decide +kernel⟩
  have lastOf := lastStatement_iff_last_mention mentionedEarly le_rfl seen
  have ofF : l.lastStatement? "f" = some 0 := by decide +kernel
  have ofG : l.lastStatement? "g" = some 2 := by decide +kernel
  have ofN : l.lastStatement? "n" = none := by decide +kernel
  exact ⟨seen,⟨ofF,((lastOf "f").1 0).mp ofF⟩,⟨ofG,((lastOf "g").1 2).mp ofG⟩,ofN,
    (lastOf "n").2.mp ofN⟩

end Liveness

end StagedLisp
