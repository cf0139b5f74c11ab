import StagedLisp.Proofs.Shape.Aliases

/-! Whether inference ends with settled shapes. A pass can change the state without raising the flag: an inner
form that assigns a name outside it puts the flag back, and merging does not touch it. All of this is done by
the first pass, so from the second pass on a lowered flag means that nothing changes any more. If the first
pass is the last one, this may be wrong. -/
namespace StagedLisp

theorem Shape.Covers.antisymm {a b : Shape} (first : a.Covers b) (second : b.Covers a) : a = b := by
  revert first second
  cases a <;> cases b <;> decide

namespace ShapeResult

open Shapes Shape

variable {form : LetForm} {known : Table Shape} {depth n : Nat}

theorem pass_agrees {s t : Shapes} (shapes : ∀ x, s.shapeOf x = t.shapeOf x)
    (overlaps : ∀ x y, s.overlap x y = true ↔ t.overlap x y = true) (bounded : s.Bounded)
    (bounded' : t.Bounded) (x : String) :
    ((pass (infer (depth - 1)) form).run s).2.shapeOf x = ((pass (infer (depth - 1)) form).run t).2.shapeOf x := by
  have covers : s.Covers t := ⟨fun x => .inl (shapes x),fun x y => (overlaps x y).mpr,bounded,bounded'⟩
  have covers' : t.Covers s := ⟨fun x => .inl (shapes x).symm,fun x y => (overlaps x y).mp,bounded',bounded⟩
  have passes : Shape.Follows (fun _ => False) Shapes.Covers Shape.Covers
      (pass (infer (depth - 1)) form) (pass (infer (depth - 1)) form) :=
    pass_covers (infer_covers (depth - 1))
  exact ((round_covers passes covers).shapes x).antisymm ((round_covers passes covers').shapes x)

/-- If a pass leaves shapes and overlaps as they are, so does the next one, with the flag down. -/
theorem calm_of_same
    (shapes : ∀ x, (state form known depth (n + 1)).shapeOf x = (state form known depth n).shapeOf x)
    (overlaps : ∀ x y, (state form known depth n).overlap x y = true ↔
      (state form known depth (n + 1)).overlap x y = true) :
    (state form known depth (n + 2)).changed = false := by
  rw [Bool.eq_false_iff]
  intro raised
  obtain ⟨x,_,gain⟩ := state_gains raised
  have same : (state form known depth (n + 1)).shapeOf x = (state form known depth (n + 2)).shapeOf x :=
    pass_agrees (s := { state form known depth n with changed := false })
      (t := { state form known depth (n + 1) with changed := false }) (fun x => (shapes x).symm) overlaps
      (state_bounded form known depth n) (state_bounded form known depth (n + 1)) x
  rw [same] at gain
  exact lt_irrefl _ gain

/-- From the second pass on, a pass that ends with the flag down has changed no shape. -/
theorem same_of_calm (calm : (state form known depth (n + 2)).changed = false) (x : String) :
    (state form known depth (n + 2)).shapeOf x = (state form known depth (n + 1)).shapeOf x := by
  rcases (state_echoes form known depth n).shapes x (.inr calm) with same | ⟨after,before⟩
  · exact same
  · exact after.trans before.symm

/-- From the second pass on, the flag stays down once it is. -/
theorem calm_stays (calm : (state form known depth (n + 2)).changed = false) :
    (state form known depth (n + 3)).changed = false := by
  refine calm_of_same (same_of_calm calm) fun x y => ?_
  rw [state_overlap,state_overlap]

/-- If a second pass raises the flag after a first one that did not, the first one made a name cyclic or
joined two names. -/
theorem first_pass_silent (calm : (state form known depth 1).changed = false)
    (raised : (state form known depth 2).changed = true) :
    (∃ x, (Shapes.knowing known).shapeOf x ≠ .cyclic ∧ (state form known depth 1).shapeOf x = .cyclic) ∨
      ∃ x y, x ≠ y ∧ form.Links x y := by
  by_contra silent
  obtain ⟨noCycle,noLink⟩ := not_or.mp silent
  have shapes (x : String) : (state form known depth 1).shapeOf x = (state form known depth 0).shapeOf x := by
    have alone := pass_repeats (infer_repeats (depth - 1)) form { state form known depth 0 with changed := false }
      { state form known depth 0 with changed := false }
    rcases alone.shapes x (.inr calm) with same | ⟨cyclic,_⟩
    · exact same
    · by_contra other
      exact noCycle ⟨x,fun before => other (cyclic.trans before.symm),cyclic⟩
  have overlaps (x y : String) : (state form known depth 0).overlap x y = true ↔
      (state form known depth 1).overlap x y = true := by
    rw [state_overlap,start_overlap]
    constructor
    · rintro rfl
      exact .refl x
    · intro linked
      induction linked with
      | rel x y link =>
        by_contra other
        exact noLink ⟨x,y,other,link⟩
      | refl x => rfl
      | symm x y _ ih => exact ih.symm
      | trans x y z _ _ first second => exact first.trans second
  cases raised.symm.trans (calm_of_same (n := 0) shapes overlaps)

/-- One more pass leaves the shapes of the bindings alone, unless inference ended with its first pass and
this one raises the flag. Then the first pass made a name cyclic or joined two names, and did not tell. -/
theorem settled_iff (form : LetForm) (known : Table Shape) (depth : Nat) :
    let result := ofForm form (.knowing known) depth
    let again := ((Shape.pass (Shape.infer (depth - 1)) form).run result.shapes).2
    ((∀ x ∈ form.names, again.shapeOf x = result.shapes.shapeOf x) ↔
      0 < result.iterations ∨ again.changed = false) ∧
    (again.changed = true → result.iterations = 0 ∧
      ((∃ x, (Shapes.knowing known).shapeOf x ≠ .cyclic ∧ result.shapes.shapeOf x = .cyclic) ∨
        ∃ x y, x ≠ y ∧ form.Links x y)) := by
  obtain ⟨_,_,shapes,calm⟩ := ofForm_ends form known depth
  dsimp only
  generalize (ofForm form (.knowing known) depth).iterations = k at *
  rw [shapes] at calm ⊢
  have again : ((Shape.pass (Shape.infer (depth - 1)) form).run (state form known depth (k + 1))).2 =
      state form known depth (k + 2) := by
    have lowered : { state form known depth (k + 1) with changed := false } =
        state form known depth (k + 1) := by rw [← calm]
    rw [← lowered]
    rfl
  have later (several : 0 < k) : (state form known depth (k + 2)).changed = false := by
    obtain ⟨n,rfl⟩ : ∃ n, k = n + 1 := ⟨k - 1,by omega⟩
    exact calm_stays calm
  rw [again]
  refine ⟨⟨fun same => .inr ?_,fun quiet x _ => same_of_calm (quiet.elim later id) x⟩,fun raised => ?_⟩
  · rw [Bool.eq_false_iff]
    intro raised
    obtain ⟨x,named,gain⟩ := state_gains raised
    rw [same x named] at gain
    exact lt_irrefl _ gain
  · have single : k = 0 := by
      by_contra several
      cases raised.symm.trans (later (Nat.pos_of_ne_zero several))
    subst single
    exact ⟨rfl,first_pass_silent calm raised⟩

/-- `(let ((x (let ((z x) (w y)) w)) (y (let ((q 1)) (set! y q)))) x)` -/
def forwardForm : LetForm where
  kind := .plain
  bindings := [
    ⟨"x",.pair 8 (.sym "let") (.pair 7
      (.pair 5 (.pair 2 (.sym "z") (.pair 1 (.sym "x") .nil))
        (.pair 6 (.pair 4 (.sym "w") (.pair 3 (.sym "y") .nil)) .nil))
      (.pair 9 (.sym "w") .nil))⟩,
    ⟨"y",.pair 16 (.sym "let") (.pair 15
      (.pair 12 (.pair 11 (.sym "q") (.pair 10 (.int 1) .nil)) .nil)
      (.pair 17 (.pair 14 (.sym "set!") (.pair 13 (.sym "y") (.pair 18 (.sym "q") .nil))) .nil))⟩]
  body := .sym "x"

/-- The value of `x` is that of `y`, which is assigned after `x` was analysed. The only pass does not tell
that it made `y` cyclic, so nothing is found out about `x`. -/
theorem forward_unsettled :
    (ofForm forwardForm (.knowing []) 256).iterations = 0 ∧
    (ofForm forwardForm (.knowing []) 256).shapes.shapeOf "y" = .cyclic ∧
    (ofForm forwardForm (.knowing []) 256).shapes.shapeOf "x" = .unknown ∧
    ((Shape.pass (Shape.infer 255) forwardForm).run
      (ofForm forwardForm (.knowing []) 256).shapes).2.shapeOf "x" = .cyclic := by
  decide +kernel

end ShapeResult

end StagedLisp
