import StagedLisp.Proofs.Release.Outer

/-! Unused bindings. The tally of uses and the control-flow graph go through a form in different ways.
Where the tally leaves nothing out, a binding that it finds unused is used by no node of the graph and
mentioned by no statement, so it may be released at its declaration. -/
namespace StagedLisp

namespace Tally

variable {form : LetForm} {depth j : Nat} {y : String}

variable (distinct : form.names.Nodup) (unskipped : (ofForm form depth).skipped = 0) (inside : j ≤ form.bodyIndex)

include distinct unskipped inside

/-- A tally that leaves nothing out counts every mention, however deep it stands. -/
theorem used_of_mentions (visible : y ∈ form.visibleIn j)
    (mentions : Mentions (form.statement j) y) : (ofForm form depth).Used y := by
  obtain ⟨less,rfl,nested⟩ := ofForm_nested unskipped inside
  obtain ⟨_,mentioned⟩ := mentions
  exact ofForm_used distinct inside visible (nested.mem_freeNames mentioned)

theorem used_of_region {node : Flow.Node}
    (member : node ∈ Flow.regionNodes (form.visibleIn j) j depth (form.statement j))
    (uses : y ∈ node.uses) : (ofForm form depth).Used y := by
  rcases mentions_or_used distinct inside member uses with mentions | used
  · have visible := Flow.regionNodes_visible member uses
    exact used_of_mentions distinct unskipped inside visible mentions
  · exact used

end Tally

theorem Plans.uses_of_unused {form : LetForm} {values : List Value} {a : Analysis}
    {options : Options} {p : BindingPlan} {routine : Routine}
    (listed : p ∈ ofForm form values a options) (unused : p.release = .unused routine) :
    (a.usage.usage? p.name).any (·.uses == 0) := by
  rcases ofForm_follows p listed with donated | borrowed | same
  · rw [unused] at donated
    cases donated
  · rw [unused] at borrowed
    cases borrowed
  · exact (releaseOf_unused (same.symm.trans unused)).2

namespace Analysis

/-- If the tally leaves nothing out, then no node of the control-flow graph uses a binding that is
counted as unused, and no statement mentions one that is released as such. -/
theorem unused_unmentioned (form : LetForm) (known : Table Shape) (options : Options)
    (distinct : form.names.Nodup) (unskipped : (ofForm form known options).usage.skipped = 0) :
    let a := ofForm form known options
    (∀ x u, a.usage.usage? x = some u → u.uses = 0 →
      (∀ node ∈ a.liveness.graph, x ∉ node.uses) ∧ a.liveness.lastStatement? x = none) ∧
    ∀ values, ∀ p ∈ Plans.ofForm form values a options, ∀ routine, p.release = .unused routine →
      ∀ j ≤ form.bodyIndex, p.name ∈ form.visibleIn j → ¬ Mentions (form.statement j) p.name := by
  intro a
  have usage : a.usage = Tally.ofForm form options.analysisDepth := ofForm_usage
  have liveness : a.liveness = _ := ofForm_liveness
  rw [ofForm_usage] at unskipped
  rw [usage,liveness]
  constructor
  · intro x u counted none
    have unused := Tally.not_used (by rw [counted]; exact beq_iff_eq.mpr none)
    constructor
    · intro node member uses
      obtain ⟨n,found⟩ := Array.mem_iff_getElem?.mp member
      obtain ⟨_,member,inside,uses⟩ := Flow.ofForm_uses found uses
      exact unused (Tally.used_of_region distinct unskipped inside member uses)
    · cases last : Liveness.lastStatement? _ x with
      | none => rfl
      | some m =>
        have positive := Liveness.positive_of_lastStatement last
        obtain ⟨j,_,inside,_,node,member,uses⟩ := Liveness.use_of_lastStatement positive last
        exact absurd (Tally.used_of_region distinct unskipped inside member uses) unused
  · intro values p listed routine unused j inside visible mentions
    have uncounted := Plans.uses_of_unused listed unused
    rw [usage] at uncounted
    exact Tally.not_used uncounted
      (Tally.used_of_mentions distinct unskipped inside visible mentions)

/-- The form `(let ((x (cons 1 2)) (y (let ((x 3)) x))) (if y (quote x) y))`. -/
def overshadowed : LetForm where
  kind := .plain
  bindings := [
    ⟨"x",.pair 0 (.sym "cons") (.pair 1 (.int 1) (.pair 2 (.int 2) .nil))⟩,
    ⟨"y",.pair 3 (.sym "let") (.pair 4
      (.pair 5 (.pair 6 (.sym "x") (.pair 7 (.int 3) .nil)) .nil) (.pair 8 (.sym "x") .nil))⟩]
  body := .pair 9 (.sym "if") (.pair 10 (.sym "y") (.pair 11
    (.pair 12 (.sym "quote") (.pair 13 (.sym "x") .nil)) (.pair 14 (.sym "y") .nil)))

def overshadowedValues : List Value := [.code (.text "mk_pair(1, 2)"),.int 3]

/-- The names `x` in the form are another variable and a symbol, so the pair is freed at once. -/
theorem overshadowed_unused :
    let a := ofForm overshadowed [] {}
    overshadowed.names.Nodup ∧ a.usage.skipped = 0 ∧
      (∀ node ∈ a.liveness.graph, "x" ∉ node.uses) ∧ a.liveness.lastStatement? "x" = none ∧
      ∃ p ∈ Plans.ofForm overshadowed overshadowedValues a {}, p.name = "x" ∧
        p.release = .unused .freeTree ∧
        ∀ j ≤ overshadowed.bodyIndex, "x" ∈ overshadowed.visibleIn j →
          ¬ Mentions (overshadowed.statement j) "x" := by
  intro a
  have distinct : overshadowed.names.Nodup := by decide
  have unskipped : a.usage.skipped = 0 := by decide +kernel
  have unused : a.usage.usage? "x" = some { name := "x" } := by decide +kernel
  obtain ⟨unlisted,silent⟩ := unused_unmentioned overshadowed [] {} distinct unskipped
  obtain ⟨p,listed,named,release⟩ : ∃ p ∈ Plans.ofForm overshadowed overshadowedValues a {},
      p.name = "x" ∧ p.release = .unused .freeTree := by
    apply Plans.planned_of_listed
    decide +kernel
  obtain ⟨unlisted,last⟩ := unlisted "x" _ unused rfl
  have silent := silent overshadowedValues p listed _ release
  rw [named] at silent
  exact ⟨distinct,unskipped,unlisted,last,p,listed,named,release,silent⟩

end Analysis

end StagedLisp
