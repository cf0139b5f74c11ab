import StagedLisp.Proofs.Shape.Rises

/-! The number of passes. Each pass but the first raises the flag only if the shape of some binding grows,
and there are three shapes to grow to. The first pass may raise it without such a gain, since it meets the
bindings; then the second one gains three steps at once, or nothing at all. -/
namespace StagedLisp

namespace Shapes

def height (s : Shapes) : List String → Nat
  | [] => 0
  | x :: names => (s.shapeOf x).rank + s.height names

variable {s t : Shapes} {names : List String} {x : String}

theorem height_le (s : Shapes) (names : List String) : s.height names ≤ 3 * names.length := by
  induction names with
  | nil => exact le_rfl
  | cons x names ih =>
    have first := Shape.rank_le_cyclic (s.shapeOf x)
    rw [height,List.length_cons]
    omega

theorem height_mono (grows : ∀ x, (s.shapeOf x).rank ≤ (t.shapeOf x).rank) (names : List String) :
    s.height names ≤ t.height names := by
  induction names with
  | nil => exact le_rfl
  | cons x names ih => exact Nat.add_le_add (grows x) ih

theorem height_gain (grows : ∀ x, (s.shapeOf x).rank ≤ (t.shapeOf x).rank) (member : x ∈ names) {n : Nat}
    (gain : (s.shapeOf x).rank + n ≤ (t.shapeOf x).rank) : s.height names + n ≤ t.height names := by
  induction names with
  | nil => cases member
  | cons y names ih =>
    rw [height,height]
    rcases List.mem_cons.mp member with rfl | later
    · have rest := height_mono grows names
      omega
    · have rest := ih later
      have first := grows y
      omega

theorem rank_le_height (s : Shapes) (member : x ∈ names) : (s.shapeOf x).rank ≤ s.height names := by
  induction names with
  | nil => cases member
  | cons y names ih =>
    rw [height]
    rcases List.mem_cons.mp member with rfl | later
    · exact Nat.le_add_right _ _
    · exact (ih later).trans (Nat.le_add_left _ _)

end Shapes

namespace Shape

open Shapes

theorem eq_of_rank {a b : Shape} (same : a.rank = b.rank) : a = b := by
  revert same
  cases a <;> cases b <;> decide

theorem infer_covers (budget : Nat) (e : Value) :
    Follows (fun _ => False) Shapes.Covers Covers (infer budget e) (infer budget e) := by
  induction budget using Nat.strongRecOn generalizing e with
  | ind budget ih =>
    cases budget with
    | zero =>
      refine ⟨fun _ => False.elim,fun s t covers => .inr ⟨.inl rfl,?_⟩⟩
      exact ⟨covers.shapes,covers.overlaps,covers.bounded,covers.bounded'⟩
    | succ budget =>
      rw [infer_succ]
      refine ofValue_follows covers_rules trivial fun items found => ?_
      refine ofForm_follows covers_rules found trivial
        (fun e _ => ih budget (Nat.lt_succ_self _) e) fun inner shown => ?_
      obtain ⟨distinct,_⟩ := binding_parts covers_rules.parts found trivial shown
      have frames (e : Value) : Frames (fun _ => True) (infer (budget - 1) e) := infer_frames _ fun _ _ => trivial
      exact nestedPass_covers distinct (ih (budget - 1) (by omega)) frames frames

end Shape

namespace ShapeResult

open Shapes

/-- The state after a number of passes, each of which starts with the flag down. -/
def afterPasses (pass : ShapeM Shape) (start : Shapes) : Nat → Shapes
  | 0 => start
  | n + 1 => (pass.run { afterPasses pass start n with changed := false }).2

/-- Passes go on for as long as they raise the flag, unless the rounds run out. -/
theorem iterate_ends (pass : ShapeM Shape) (start : Shapes) (rounds i : Nat) (body : Shape) :
    ∃ k, i ≤ k ∧ (iterate pass rounds i (afterPasses pass start i) body).iterations = k ∧
      (∀ j, i ≤ j → j < k → (afterPasses pass start (j + 1)).changed = true) ∧
      (k = i + rounds ∨ (afterPasses pass start (k + 1)).changed = false ∧
        (iterate pass rounds i (afterPasses pass start i) body).shapes = afterPasses pass start (k + 1)) := by
  induction rounds generalizing i body with
  | zero => exact ⟨i,le_rfl,rfl,fun j from_ before => by omega,.inl rfl⟩
  | succ rounds ih =>
    rw [iterate_succ]
    by_cases changed : (afterPasses pass start (i + 1)).changed = true
    · obtain ⟨k,later,count,raised,last⟩ := ih (i + 1)
        (pass.run { afterPasses pass start i with changed := false }).1
      have next : (pass.run { afterPasses pass start i with changed := false }).2 =
        afterPasses pass start (i + 1) := rfl
      rw [next,if_pos changed]
      refine ⟨k,Nat.le_of_succ_le later,count,fun j from_ before => ?_,last.imp_left fun all => by omega⟩
      rcases Nat.eq_or_lt_of_le from_ with rfl | after
      · exact changed
      · exact raised j after before
    · have next : (pass.run { afterPasses pass start i with changed := false }).2 =
        afterPasses pass start (i + 1) := rfl
      rw [next,if_neg changed]
      refine ⟨i,le_rfl,rfl,fun j from_ before => by omega,.inr ⟨?_,rfl⟩⟩
      exact Bool.eq_false_iff.mpr changed

section Form

variable (form : LetForm) (known : Table Shape) (depth : Nat)

def state (n : Nat) : Shapes :=
  afterPasses (Shape.pass (Shape.infer (depth - 1)) form) (.knowing known) n

theorem state_echoes (n : Nat) : Echoes form.names { state form known depth n with changed := false }
    { state form known depth (n + 1) with changed := false } (state form known depth (n + 1))
    (state form known depth (n + 2)) :=
  Shape.pass_repeats (Shape.infer_repeats (depth - 1)) form _ _

theorem state_rises (n : Nat) : Rises form.names { state form known depth n with changed := false }
    (state form known depth (n + 1)) :=
  (state_echoes form known depth n).first

theorem state_flagged (n : Nat) (bounded : (state form known depth n).Bounded) :
    Flagged { state form known depth n with changed := false } (state form known depth (n + 1)) := by
  have frames (e : Value) : Shape.Frames (fun _ => True) (Shape.infer (depth - 1) e) :=
    Shape.infer_frames _ fun _ _ => trivial
  have cleared : Bounded { state form known depth n with changed := false } := bounded
  exact Shape.pass_flagged frames form cleared

theorem state_bounded (n : Nat) : (state form known depth n).Bounded := by
  induction n with
  | zero => exact knowing_bounded known
  | succ n ih => exact (state_flagged form known depth n ih).bounded

variable {form known depth} {n : Nat}

/-- After the first pass, the flag goes up only for a binding that grows. -/
theorem state_gains (raised : (state form known depth (n + 2)).changed = true) :
    ∃ x ∈ form.names, ((state form known depth (n + 1)).shapeOf x).rank <
      ((state form known depth (n + 2)).shapeOf x).rank := by
  have echoes := state_echoes form known depth n
  rcases echoes.second.reason raised with before | ⟨x,grown⟩ | ⟨x,named,absent⟩
  · cases before
  · by_cases named : x ∈ form.names
    · exact ⟨x,named,grown⟩
    · -- What another name gains in a pass, it gains in the pass before.
      rcases echoes.shapes x (.inl named) with same | ⟨_,cyclic⟩
      · rw [same] at grown
        exact absurd grown (lt_irrefl _)
      · have top := Shape.rank_le_cyclic ((state form known depth (n + 2)).shapeOf x)
        have bottom : 3 ≤ ((state form known depth (n + 1)).shapeOf x).rank := Shape.rank_cyclic_le.mpr cyclic
        exact absurd grown (not_lt.mpr (top.trans bottom))
  · exact absurd absent (Shape.pass_known (Shape.infer_repeats (depth - 1)) named)

/-- If the first pass leaves every binding unknown, it can only have made other names cyclic. Then the
second pass makes a binding cyclic, too, or finds nothing to change. -/
theorem second_pass_gains (flat : (state form known depth 1).height form.names = 0)
    (raised : (state form known depth 2).changed = true) :
    3 ≤ (state form known depth 2).height form.names := by
  have grows (x : String) :
      ((state form known depth 0).shapeOf x).rank ≤ ((state form known depth 1).shapeOf x).rank :=
    (state_rises form known depth 0).grows x
  have unknown {x : String} (named : x ∈ form.names) : ((state form known depth 1).shapeOf x).rank = 0 :=
    Nat.eq_zero_of_le_zero (flat ▸ rank_le_height _ named)
  have bounded := state_bounded form known depth 0
  have flagged := state_flagged form known depth 0 bounded
  have covers : Shapes.Covers { state form known depth 1 with changed := false }
      { state form known depth 0 with changed := false } := by
    refine ⟨fun x => ?_,flagged.overlaps,flagged.bounded,bounded⟩
    have first : ((state form known depth 1).shapeOf x).Covers ((state form known depth 0).shapeOf x) := by
      by_cases named : x ∈ form.names
      · have after := unknown named
        have before := grows x
        refine .inl (Shape.eq_of_rank ?_)
        omega
      · have alone := Shape.pass_repeats (Shape.infer_repeats (depth - 1)) form
          { state form known depth 0 with changed := false }
          { state form known depth 0 with changed := false }
        exact (alone.shapes x (.inl named)).imp_right fun both => .inl both.1
    exact first
  have second : (state form known depth 2).Covers (state form known depth 1) :=
    round_covers (Shape.pass_covers (Shape.infer_covers (depth - 1))) covers
  obtain ⟨x,named,grown⟩ := state_gains raised
  have top : (state form known depth 2).shapeOf x = .cyclic := by
    have below := unknown named
    have covered := second.shapes x
    revert covered grown below
    cases (state form known depth 1).shapeOf x <;> cases (state form known depth 2).shapeOf x <;> decide
  exact (Shape.rank_cyclic_le.mpr top).trans (rank_le_height _ named)

theorem height_gains {m : Nat} (start : 1 ≤ m) (later : m ≤ n)
    (raised : ∀ i, m ≤ i → i < n → (state form known depth (i + 1)).changed = true) :
    (state form known depth m).height form.names + (n - m) ≤ (state form known depth n).height form.names := by
  induction later with
  | refl => simp
  | @step n later ih =>
    have before := ih fun i from_ less => raised i from_ (Nat.lt_succ_of_lt less)
    have reached : m ≤ n := later
    obtain ⟨k,rfl⟩ : ∃ k, n = k + 1 := ⟨n - 1,by omega⟩
    obtain ⟨x,named,gain⟩ := state_gains (raised (k + 1) later (Nat.lt_succ_self _))
    have grows (x : String) : ((state form known depth (k + 1)).shapeOf x).rank ≤
        ((state form known depth (k + 2)).shapeOf x).rank := (state_rises form known depth (k + 1)).grows x
    have after := height_gain (n := 1) grows named gain
    calc (state form known depth m).height form.names + (k + 2 - m)
        = (state form known depth m).height form.names + (k + 1 - m) + 1 := by omega
      _ ≤ (state form known depth (k + 1)).height form.names + 1 := Nat.succ_le_succ before
      _ ≤ (state form known depth (k + 2)).height form.names := after

theorem raised_le (raised : ∀ i < n, (state form known depth (i + 1)).changed = true) :
    n ≤ 3 * max form.bindings.length 1 := by
  rcases Nat.lt_or_ge n 2 with few | several
  · omega
  · have top := height_le (state form known depth n) form.names
    have count : form.names.length = form.bindings.length := List.length_map _
    have from_ (m : Nat) (start : 1 ≤ m) (later : m ≤ n) := height_gains start later fun i _ less => raised i less
    by_cases flat : (state form known depth 1).height form.names = 0
    · have gained := second_pass_gains flat (raised 1 several)
      have rest := from_ 2 (by omega) several
      omega
    · have rest := from_ 1 le_rfl (by omega)
      omega

end Form

theorem ofForm_ends (form : LetForm) (known : Table Shape) (depth : Nat) :
    let result := ofForm form (.knowing known) depth
    result.iterations ≤ 3 * max form.bindings.length 1 ∧
      (∀ i < result.iterations, (state form known depth (i + 1)).changed = true) ∧
      result.shapes = state form known depth (result.iterations + 1) ∧
      result.shapes.changed = false := by
  obtain ⟨k,_,count,raised,last⟩ := iterate_ends (Shape.pass (Shape.infer (depth - 1)) form)
    (.knowing known) (roundLimit form) 0 .unknown
  have all : ∀ i < k, (state form known depth (i + 1)).changed = true := fun i less => raised i (Nat.zero_le i) less
  have bound := raised_le all
  obtain ⟨calm,shapes⟩ := last.resolve_left fun exhausted => by
    rw [roundLimit] at exhausted
    omega
  have counted : (ofForm form (.knowing known) depth).iterations = k := count
  have ended : (ofForm form (.knowing known) depth).shapes = state form known depth (k + 1) := shapes
  dsimp only
  rw [counted,ended]
  exact ⟨bound,all,rfl,calm⟩

/-- Inference ends with a pass that changes no shape, before its rounds run out. Each of the passes before
raises the flag, and there are three for each binding at most. No pass makes a shape smaller. -/
theorem passes_bounded (form : LetForm) (known : Table Shape) (depth : Nat) :
    let result := ofForm form (.knowing known) depth
    (result.iterations ≤ 3 * max form.bindings.length 1 ∧
      (∀ i < result.iterations, (state form known depth (i + 1)).changed = true) ∧
      result.shapes = state form known depth (result.iterations + 1) ∧
      result.shapes.changed = false) ∧
    ∀ i x, ((state form known depth i).shapeOf x).rank ≤ ((state form known depth (i + 1)).shapeOf x).rank :=
  ⟨ofForm_ends form known depth,fun i x => (state_rises form known depth i).grows x⟩

end ShapeResult

end StagedLisp
