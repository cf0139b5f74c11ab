import Mathlib.Logic.Relation
import StagedLisp.Proofs.Shape.Rounds

/-! Alias groups are what the bindings link together. A binding is linked to the name that its initialiser
wraps. A pass merges the two ends of each link, and nothing else: inner forms come and go without a change to
the groups of the names around them, whatever names they bind. -/
namespace StagedLisp

/-- The expression is a name, under any number of `lift`, `car` and `cdr`. -/
inductive Wraps (x : String) : Value → Prop where
  | name : Wraps x (.sym x)
  | under {cell cell' keyword operand rest}
      (exposes : keyword = "lift" ∨ keyword = "car" ∨ keyword = "cdr") (inner : Wraps x operand) :
      Wraps x (.pair cell (.sym keyword) (.pair cell' operand rest))

theorem wraps_iff {e : Value} {x : String} : Wraps x e ↔ ∃ part, exposed? e = some (x,part) := by
  constructor
  · intro wraps
    induction wraps with
    | name => exact ⟨false,rfl⟩
    | under exposes _ ih =>
      obtain ⟨part,found⟩ := ih
      rcases exposes with rfl | rfl | rfl <;> simp [exposed?,found]
  · rintro ⟨part,found⟩
    fun_induction exposed? e generalizing part with
    | case1 => cases found; exact .name
    | case2 _ keyword _ operand _ projects ih =>
      obtain ⟨⟨_,inner⟩,there,same⟩ := Option.map_eq_some_iff.mp found
      cases same
      simp only [Bool.or_eq_true,beq_iff_eq] at projects
      exact .under (.inr projects) (ih inner there)
    | case3 _ keyword _ operand _ _ lifts ih => exact .under (.inl (beq_iff_eq.mp lifts)) (ih part found)
    | case4 => cases found
    | case5 => cases found

/-- A binding links its name to the one that its initialiser wraps. -/
def LetForm.Links (form : LetForm) (x y : String) : Prop :=
  ∃ b ∈ form.bindings, b.name = x ∧ Wraps y b.init

namespace Shape

open Shapes Relation

variable {infer : Value → ShapeM Shape} {touched : String → Prop} {s : Shapes}

/-- A binding makes one class of those of its name and of the name it wraps. -/
theorem visit_overlap {b : Binding} (frames : Frames touched (infer b.init)) (bounded : s.Bounded)
    (x y : String) : (visit infer b s).overlap x y = true ↔ s.overlap x y = true ∨ ∃ source,
      Wraps source b.init ∧ (s.overlap x b.name = true ∨ s.overlap x source = true) ∧
        (s.overlap y b.name = true ∨ s.overlap y source = true) := by
  have inferred := frames s bounded
  have grown : Bounded (((infer b.init).run s).2.grow b.name ((infer b.init).run s).1) :=
    (Flagged.grow inferred.bounded _ _).bounded
  have same (x y : String) :
      (((infer b.init).run s).2.grow b.name ((infer b.init).run s).1).overlap x y = s.overlap x y := by
    rw [overlap_congr (grow_group _ _ _),inferred.overlap]
  simp only [wraps_iff]
  unfold visit record
  cases exposed : exposed? b.init with
  | none => simp [same]
  | some entry =>
    obtain ⟨source,part⟩ := entry
    dsimp only
    split
    · next self =>
      -- The name wraps itself, so both classes are one already.
      subst self
      rw [same]
      refine ⟨.inl,?_⟩
      rintro (overlap | ⟨_,⟨_,found⟩,left,right⟩)
      · exact overlap
      · cases found
        rw [or_self] at left right
        exact overlap_trans left (overlap_symm right)
    · simp [overlap_merge grown,same]

section Pass

variable (frames : ∀ e, Frames touched (infer e)) (bounded : s.Bounded)

include frames bounded

variable {bindings : List Binding}

theorem visits_link {b : Binding} {x : String} (member : b ∈ bindings) (wraps : Wraps x b.init) :
    (bindings.foldl (fun s b => visit infer b s) s).overlap b.name x = true := by
  induction bindings generalizing s with
  | nil => cases member
  | cons c bindings ih =>
    have after := (visit_flagged (frames c.init) bounded).bounded
    rcases List.mem_cons.mp member with rfl | later
    · have here : (visit infer b s).overlap b.name x = true :=
        (visit_overlap (frames b.init) bounded _ _).mpr
          (.inr ⟨x,wraps,.inl (overlap_iff.mpr (.inl rfl)),.inr (overlap_iff.mpr (.inl rfl))⟩)
      exact (visits_flagged frames bindings (.refl after)).overlaps _ _ here
    · exact ih after later

theorem visits_linked {linked : String → String → Prop} (equivalence : Equivalence linked)
    (links : ∀ b ∈ bindings, ∀ x, Wraps x b.init → linked b.name x)
    (before : ∀ x y, s.overlap x y = true → linked x y) {x y : String}
    (overlap : (bindings.foldl (fun s b => visit infer b s) s).overlap x y = true) :
    linked x y := by
  induction bindings generalizing s with
  | nil => exact before x y overlap
  | cons b bindings ih =>
    obtain ⟨here,rest⟩ := List.forall_mem_cons.mp links
    refine ih (visit_flagged (frames b.init) bounded).bounded rest ?_ overlap
    intro x y joined
    rcases (visit_overlap (frames b.init) bounded x y).mp joined with old | ⟨source,wraps,left,right⟩
    · exact before x y old
    · have link := here source wraps
      have reach {z : String} (near : s.overlap z b.name = true ∨ s.overlap z source = true) : linked z b.name := by
        rcases near with near | near
        · exact before _ _ near
        · exact equivalence.trans (before _ _ near) (equivalence.symm link)
      exact equivalence.trans (reach left) (equivalence.symm (reach right))

theorem pass_overlap {form : LetForm}
    (before : ∀ x y, s.overlap x y = true → EqvGen form.Links x y) (x y : String) :
    ((pass infer form).run s).2.overlap x y = true ↔ EqvGen form.Links x y := by
  have raised : Frame (fun _ => True) [] [] s (if form.kind = .recursive then
      form.names.foldl (fun s x => s.grow x .cyclic) s else s) := by
    split
    · exact (Frame.refl bounded).growAll fun _ _ => .inr trivial
    · exact .refl bounded
  have visited := visits_flagged frames form.bindings (.refl raised.bounded)
  rw [pass_runs,(frames form.body _ visited.bounded).overlap]
  have equivalence : Equivalence (EqvGen form.Links) := EqvGen.is_equivalence _
  constructor
  · refine visits_linked frames raised.bounded equivalence ?_ fun x y joined => ?_
    · exact fun b bound x wraps => .rel _ _ ⟨b,bound,rfl,wraps⟩
    · exact before x y (raised.overlap x y ▸ joined)
  · intro linked
    induction linked with
    | rel x y link =>
      obtain ⟨b,bound,rfl,wraps⟩ := link
      exact visits_link frames raised.bounded bound wraps
    | refl x => exact overlap_iff.mpr (.inl rfl)
    | symm x y _ ih => exact overlap_symm ih
    | trans x y z _ _ first second => exact overlap_trans first second

end Pass

end Shape

namespace ShapeResult

theorem start_overlap (form : LetForm) (known : Table Shape) (depth : Nat) (x y : String) :
    (state form known depth 0).overlap x y = true ↔ x = y := by
  rw [Shapes.overlap_iff]
  refine ⟨?_,.inl⟩
  rintro (same | ⟨g,grouped,_⟩)
  · exact same
  · exact absurd (state_bounded form known depth 0 x g grouped) (Nat.not_lt_zero g)

/-- After each pass over a form, names overlap if and only if a chain of links leads from one to the
other. -/
theorem state_overlap (form : LetForm) (known : Table Shape) (depth n : Nat) (x y : String) :
    (state form known depth (n + 1)).overlap x y = true ↔ Relation.EqvGen form.Links x y := by
  have frames (e : Value) : Shape.Frames (fun _ => True) (Shape.infer (depth - 1) e) :=
    Shape.infer_frames _ fun _ _ => trivial
  have bounded (n : Nat) : Shapes.Bounded { state form known depth n with changed := false } :=
    state_bounded form known depth n
  induction n generalizing x y with
  | zero =>
    refine Shape.pass_overlap frames (bounded 0) (fun x y overlap => ?_) x y
    cases (start_overlap form known depth x y).mp overlap
    exact .refl x
  | succ n ih =>
    exact Shape.pass_overlap frames (bounded (n + 1)) (fun x y overlap => (ih x y).mp overlap) x y

/-- The values of two names may have structure in common if and only if a chain of bindings links them,
each of which wraps the next name or is wrapped by it. -/
theorem mayAlias_iff_linked (form : LetForm) (known : Table Shape) (depth : Nat) (x y : String) :
    (ofForm form (.knowing known) depth).shapes.mayAlias (.sym x) (.sym y) = true ↔
      Relation.EqvGen form.Links x y := by
  have names (s : Shapes) : s.mayAlias (.sym x) (.sym y) = s.overlap x y := by
    simp [Shapes.mayAlias,structureNames,selected]
  rw [names,(ofForm_ends form known depth).2.2.1]
  exact state_overlap form known depth _ x y

end ShapeResult

end StagedLisp
