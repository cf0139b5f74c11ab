import StagedLisp.Proofs.Shape.Frames

/-! Limits on the depth of shape inference. A part that is nested too deep is taken to have no shape at
all, which counts for nothing in a join, and its assignments are missed. So a limit can turn a shape into a
tree. It could not if such a part were taken for a cycle through everything that is assigned in it. -/
namespace StagedLisp

open List Shape Shapes

def targets : Value → List String
  | .pair _ head tail =>
    (match head,tail with
      | .sym "set!",.pair _ (.sym x) _ => [x]
      | _,_ => []) ++ targets head ++ targets tail
  | _ => []

theorem target_of_items {e value : Value} {x : String}
    (found : e.formItems? = some [.sym "set!",.sym x,value]) : x ∈ targets e := by
  obtain ⟨cell,tail,rfl,listed⟩ := formItems_cons found
  cases tail with
  | pair cell head tail =>
    obtain ⟨rest,_,same⟩ := Option.map_eq_some_iff.mp listed
    cases (List.cons.inj same).1
    simp [targets]
  | _ => cases listed

theorem targets_hereditary (touched : String → Prop) : Value.Hereditary fun e => ∀ x ∈ targets e, touched x := by
  intro cell head tail here
  refine ⟨fun x member => here x ?_,fun x member => here x ?_⟩ <;> simp [targets,member]

namespace Shape

open Shapes

/-- Inference with the given answer for parts nested too deep. -/
def inferTaking (leftOut : Value → ShapeM Shape) : (budget : Nat) → Value → ShapeM Shape
  | 0 => leftOut
  | 1 => ofValue (ofForm leftOut leftOut)
  | budget + 2 =>
    ofValue (ofForm (inferTaking leftOut (budget + 1)) (inferTaking leftOut budget))

theorem inferTaking_succ (leftOut : Value → ShapeM Shape) (budget : Nat) : inferTaking leftOut (budget + 1) =
      ofValue (ofForm (inferTaking leftOut budget) (inferTaking leftOut (budget - 1))) := by
  cases budget <;> rfl

theorem infer_succ (budget : Nat) : infer (budget + 1) = ofValue (ofForm (infer budget) (infer (budget - 1))) := by
  cases budget <;> rfl

theorem infer_taking (budget : Nat) : infer budget = inferTaking (infer 0) budget := by
  induction budget using infer.induct with
  | case1 => rfl
  | case2 => rfl
  | case3 budget first second =>
    have unfolded : infer (budget + 2) = ofValue (ofForm (infer (budget + 1)) (infer budget)) := rfl
    rw [unfolded,first,second]
    rfl

theorem binding_parts {H : Value → Prop} (parts : Value.Hereditary H) {e : Value} {items : List Value}
    {inner : LetForm} (found : e.formItems? = some items) (here : H e)
    (shown : View.ofItems items = .binding inner) :
    inner.names.Nodup ∧ (∀ b ∈ inner.bindings, H b.init) ∧ H inner.body := by
  obtain ⟨kind,rest,rfl,read⟩ := View.ofItems_shows shown
  have each := (forall_mem_cons.mp (parts.items here (formItems_head found).1)).2
  obtain ⟨bindings,body⟩ := LetForm.ofParts_hereditary read parts each
  exact ⟨(LetForm.ofParts_ok read).1,fun b bound => (bindings b bound).2,body⟩

section Frames

variable {touched : String → Prop} {leftOut : Value → ShapeM Shape} {e : Value}

theorem frame_rules (touched : String → Prop) (start : Shapes) : Rules (fun e => ∀ x ∈ targets e, touched x)
      (fun s t => s = t ∧ Frame touched [] [] start s) Eq := by
  refine .ofEq (targets_hereditary touched) ?_ ?_ ?_
  · rintro x s _ _ ⟨rfl,_⟩
    rfl
  · rintro args s _ _ ⟨rfl,_⟩
    rfl
  · rintro e x value s _ found here ⟨rfl,frame⟩
    exact ⟨rfl,frame.grow (.inr ⟨here x (target_of_items found),rfl⟩)⟩

theorem Frames.follows {α : Type} {x : ShapeM α} (frames : Frames touched x) (start : Shapes) :
    Follows (fun _ => False) (fun s t => s = t ∧ Frame touched [] [] start s) Eq x x := by
  refine ⟨fun _ => False.elim,?_⟩
  rintro s _ ⟨rfl,frame⟩
  exact .inr ⟨rfl,rfl,frame.trans (frames s frame.bounded)⟩

theorem frames_of_follows {α : Type} {x : ShapeM α} (follows : ∀ start, Follows (fun _ => False)
    (fun s t => s = t ∧ Frame touched [] [] start s) Eq x x) : Frames touched x := by
  intro s bounded
  obtain ⟨_,_,frame⟩ := ((follows s).keeps s s ⟨rfl,.refl bounded⟩).resolve_left id
  exact frame

/-- Inference touches the names that are assigned in an expression, if what is left out does no more. -/
theorem inferTaking_frames (leaves : ∀ e, (∀ x ∈ targets e, touched x) → Frames touched (leftOut e)) (budget : Nat)
    (here : ∀ x ∈ targets e, touched x) : Frames touched (inferTaking leftOut budget e) := by
  induction budget using Nat.strongRecOn generalizing e with
  | ind budget ih =>
    cases budget with
    | zero => exact leaves e here
    | succ budget =>
      rw [inferTaking_succ]
      refine frames_of_follows fun start => ?_
      refine ofValue_follows (frame_rules touched start) here fun items found => ?_
      refine ofForm_follows (frame_rules touched start) found here
        (fun e inside => (ih budget (Nat.lt_succ_self _) inside).follows start) fun inner shown => ?_
      obtain ⟨distinct,inits,body⟩ := binding_parts (targets_hereditary touched) found here shown
      have deeper {e : Value} (inside : ∀ x ∈ targets e, touched x) := ih (budget - 1) (by omega) inside
      exact (nestedPass_frames distinct (fun b bound => deeper (inits b bound)) (deeper body)).follows start

theorem skip_frames (e : Value) : Frames touched (infer 0 e) := by
  intro s bounded
  have same : Frame touched [] [] s s := .refl bounded
  exact ⟨bounded,same.next,same.flag,same.shapes,same.kept,same.fresh⟩

theorem infer_frames (budget : Nat) (here : ∀ x ∈ targets e, touched x) : Frames touched (infer budget e) := by
  rw [infer_taking]
  exact inferTaking_frames (fun e _ => skip_frames e) budget here

/-- A part is taken for a cycle through everything that is assigned in it. -/
def suspect (e : Value) : ShapeM Shape := do
  modify fun s => (targets e).foldl (fun s x => s.grow x .cyclic) s
  return cyclic

theorem suspect_frames (here : ∀ x ∈ targets e, touched x) : Frames touched (suspect e) :=
  fun _ bounded => (Frame.refl bounded).growAll fun x member => .inr (here x member)

end Frames

/-- The first shape is the second or a worse one; where nothing is known, the first is as bad or worse. -/
def Covers (a b : Shape) : Prop := a = b ∨ a = cyclic ∨ a = dag ∧ b = tree

instance (a b : Shape) : Decidable (a.Covers b) := inferInstanceAs (Decidable (_ ∨ _))

section Covers

variable {a b a' b' : Shape} {as bs : List Shape}

theorem Covers.join (first : a.Covers b) (second : a'.Covers b') : (a.join a').Covers (b.join b') := by
  revert first second
  cases a <;> cases b <;> cases a' <;> cases b' <;> decide

variable (each : List.Forall₂ Covers as bs)

include each

theorem Covers.joinAll : (joinAll as).Covers (joinAll bs) := by
  have fold (a b : Shape) (first : a.Covers b) : (as.foldl Shape.join a).Covers (bs.foldl Shape.join b) := by
    induction each generalizing a b with
    | nil => exact first
    | cons next _ ih => exact ih _ _ (first.join next)
  exact fold _ _ (.inl rfl)

omit each in
theorem joinAll_rank {n : Nat} (each : ∀ a ∈ as, a.rank ≤ n) : (joinAll as).rank ≤ n := by
  have join {a b : Shape} (first : a.rank ≤ n) (second : b.rank ≤ n) : (a.join b).rank ≤ n := by
    unfold join
    split <;> assumption
  have fold (a : Shape) (first : a.rank ≤ n) : (as.foldl Shape.join a).rank ≤ n := by
    induction as generalizing a with
    | nil => exact first
    | cons b as ih =>
      obtain ⟨here,rest⟩ := forall_mem_cons.mp each
      exact ih rest _ (join first here)
  exact fold unknown (Nat.zero_le n)

theorem Covers.lists (low : (Shape.joinAll as).rank ≤ 1) : as = bs := by
  have below (a : Shape) (member : a ∈ as) : a.rank ≤ 1 := ((rank_foldl as unknown).2 a member).trans low
  clear low
  induction each with
  | nil => rfl
  | @cons a b _ _ covers _ ih =>
    obtain ⟨first,rest⟩ := forall_mem_cons.mp below
    have same : a = b := by
      revert first covers
      cases a <;> cases b <;> decide
    rw [same,ih rest]

theorem Covers.ofCall : (ofCall as).Covers (ofCall bs) := by
  have joined := Covers.joinAll each
  unfold Shape.ofCall
  generalize Shape.joinAll as = a at *
  generalize Shape.joinAll bs = b at *
  revert joined
  cases a <;> cases b <;> decide

theorem Covers.construction {aliasing aliasing' : Bool} (aliased : aliasing' = true → aliasing = true) :
    (construction as aliasing).Covers (construction bs aliasing') := by
  by_cases low : (Shape.joinAll as).rank ≤ 1
  · cases Covers.lists each low
    unfold construction
    split
    · revert aliased
      cases aliasing <;> cases aliasing' <;> decide
    · exact .inl rfl
  · have mixed : ¬ as.all (· == tree) = true := by
      intro all
      refine low (joinAll_rank fun a member => ?_)
      rw [beq_iff_eq.mp (all_eq_true.mp all a member)]
      decide
    have joined := Covers.joinAll each
    unfold Shape.construction
    rw [if_neg mixed]
    generalize Shape.joinAll as = a at low joined
    generalize Shape.joinAll bs = b at joined
    revert low joined
    cases a <;> cases b <;> cases aliasing' <;> cases bs.all (· == tree) <;> decide

end Covers

end Shape

namespace Shapes

/-- The first state has a shape for each name that covers that in the second, and all its overlaps. -/
structure Covers (s t : Shapes) : Prop where
  shapes : ∀ x, (s.shapeOf x).Covers (t.shapeOf x)
  overlaps : ∀ a b, t.overlap a b = true → s.overlap a b = true
  bounded : s.Bounded
  bounded' : t.Bounded

namespace Covers

variable {s t : Shapes}

theorem refl (bounded : s.Bounded) : s.Covers s := ⟨fun _ => .inl rfl,fun _ _ => id,bounded,bounded⟩

theorem anyAlias (covers : s.Covers t) {args : List Value} (aliased : t.anyAlias args = true) :
    s.anyAlias args = true := by
  induction args with
  | nil => exact aliased
  | cons e args ih =>
    rw [Shapes.anyAlias,Bool.or_eq_true] at aliased ⊢
    refine aliased.imp (fun found => ?_) ih
    obtain ⟨other,member,may⟩ := any_eq_true.mp found
    obtain ⟨a,left,right⟩ := any_eq_true.mp may
    obtain ⟨b,there,overlap⟩ := any_eq_true.mp right
    refine any_eq_true.mpr ⟨other,member,any_eq_true.mpr ⟨a,left,?_⟩⟩
    exact any_eq_true.mpr ⟨b,there,covers.overlaps a b overlap⟩

theorem grow (covers : s.Covers t) {a b : Shape} (shape : a.Covers b) (x : String) :
    (s.grow x a).Covers (t.grow x b) where
  shapes y := by
    rw [grow_shape,grow_shape]
    split
    · exact (covers.shapes x).join shape
    · exact covers.shapes y
  overlaps y z overlap := by
    rw [overlap_congr (grow_group _ _ _)] at overlap ⊢
    exact covers.overlaps y z overlap
  bounded y g found := (grow_skipped s x a).2 ▸ covers.bounded y g (grow_group s x a y ▸ found)
  bounded' y g found := (grow_skipped t x b).2 ▸ covers.bounded' y g (grow_group t x b y ▸ found)

theorem merge (covers : s.Covers t) (x source : String) : (s.merge x source).Covers (t.merge x source) where
  shapes y := by
    rw [merge_shape,merge_shape]
    exact covers.shapes y
  overlaps y z overlap := by
    rw [overlap_merge covers.bounded]
    rw [overlap_merge covers.bounded'] at overlap
    refine overlap.imp (covers.overlaps y z) (And.imp ?_ ?_)
    · exact Or.imp (covers.overlaps y x) (covers.overlaps y source)
    · exact Or.imp (covers.overlaps z x) (covers.overlaps z source)
  bounded := merge_bounded covers.bounded
  bounded' := merge_bounded covers.bounded'

theorem enterForm (covers : s.Covers t) (form : LetForm) : (enterForm form s).Covers (enterForm form t) where
  shapes y := by
    rw [shapeOf_eq,shapeOf_eq,infoOf_enterForm,infoOf_enterForm]
    split
    · exact .inl rfl
    · rw [← shapeOf_eq,← shapeOf_eq]
      exact covers.shapes y
  overlaps y z overlap := by
    rcases overlap_iff.mp overlap with same | ⟨g,left,right⟩
    · exact overlap_iff.mpr (.inl same)
    · rw [infoOf_enterForm] at left right
      split at left
      · cases left
      · next outside =>
        split at right
        · cases right
        · next outside' =>
          rcases overlap_iff.mp (covers.overlaps y z (overlap_iff.mpr (.inr ⟨g,left,right⟩))) with
            same | ⟨h,first,second⟩
          · exact overlap_iff.mpr (.inl same)
          · refine overlap_iff.mpr (.inr ⟨h,?_,?_⟩)
            · rwa [infoOf_enterForm,if_neg outside]
            · rwa [infoOf_enterForm,if_neg outside']
  bounded := enterForm_bounded form covers.bounded
  bounded' := enterForm_bounded form covers.bounded'

end Covers

end Shapes

namespace Shape

open Shapes

variable {deeper deeper' : Value → ShapeM Shape} {form : LetForm}

theorem covers_rules : Rules (fun _ => True) Shapes.Covers Covers where
  parts _ _ _ _ := ⟨trivial,trivial⟩
  same _ := .inl rfl
  name _ covers := covers.shapes _
  joins each := Covers.joinAll each
  calls each := Covers.ofCall each
  constructs each _ covers := Covers.construction each covers.anyAlias
  assigns _ _ covers := covers.grow (.inl rfl) _

theorem pass_covers (each : ∀ e, Follows (fun _ => False) Shapes.Covers Covers (deeper e) (deeper' e)) :
    Follows (fun _ => False) Shapes.Covers Covers (pass deeper form) (pass deeper' form) := by
  refine pass_follows (fun _ => .inl rfl) (fun b _ => each b.init) (each form.body) ?_ ?_
  · intro x _ a b s t shape covers
    exact covers.grow shape x
  · intro b _ source _ _ _ s t covers
    exact covers.merge b.name source

theorem nestedPass_covers (distinct : form.names.Nodup)
    (each : ∀ e, Follows (fun _ => False) Shapes.Covers Covers (deeper e) (deeper' e))
    (frames : ∀ e, Frames (fun _ => True) (deeper e))
    (frames' : ∀ e, Frames (fun _ => True) (deeper' e)) :
    Follows (fun _ => False) Shapes.Covers Covers (nestedPass deeper form) (nestedPass deeper' form) := by
  refine ⟨fun _ => False.elim,fun s t covers => .inr ?_⟩
  have passes : Follows (fun _ => False) Shapes.Covers Covers (pass deeper form) (pass deeper' form) :=
    pass_covers each
  obtain ⟨shape,inner⟩ := (passes.keeps _ _ (covers.enterForm form)).resolve_left id
  refine ⟨shape,?_⟩
  have frame := nestedPass_frames distinct (fun b _ => frames b.init) (frames form.body) s covers.bounded
  have frame' := nestedPass_frames distinct (fun b _ => frames' b.init) (frames' form.body) t covers.bounded'
  refine ⟨fun y => ?_,fun y z overlap => ?_,frame.bounded,frame'.bounded⟩
  · rw [shapeOf_eq,shapeOf_eq,infoOf_nestedPass,infoOf_nestedPass]
    split
    · rw [← shapeOf_eq,← shapeOf_eq]
      exact covers.shapes y
    · rw [← shapeOf_eq,← shapeOf_eq]
      exact inner.shapes y
  · rw [frame.overlap]
    rw [frame'.overlap] at overlap
    exact covers.overlaps y z overlap

theorem growAll_shape (names : List String) (s : Shapes) (y : String) :
    (names.foldl (fun s x => s.grow x .cyclic) s).shapeOf y = if y ∈ names then .cyclic else s.shapeOf y := by
  induction names generalizing s with
  | nil => rfl
  | cons x names ih =>
    rw [foldl_cons,ih,grow_shape]
    by_cases here : y = x <;> by_cases later : y ∈ names <;> simp [here,later,join_cyclic]

theorem suspect_covers (budget : Nat) (e : Value) :
    Follows (fun _ => False) Shapes.Covers Covers (suspect e) (infer budget e) := by
  refine ⟨fun _ => False.elim,fun s t covers => .inr ⟨.inr (.inl rfl),?_⟩⟩
  have frame : Frame (· ∈ targets e) [] [] s ((suspect e).run s).2 := suspect_frames (fun _ => id) s covers.bounded
  have frame' : Frame (· ∈ targets e) [] [] t ((infer budget e).run t).2 :=
    infer_frames budget (fun _ => id) t covers.bounded'
  refine ⟨fun y => ?_,fun y z overlap => ?_,frame.bounded,frame'.bounded⟩
  · have suspected : ((suspect e).run s).2.shapeOf y = if y ∈ targets e then .cyclic else s.shapeOf y :=
      growAll_shape (targets e) s y
    rw [suspected]
    split
    · exact .inr (.inl rfl)
    · next other =>
      rw [(frame'.shapes y not_mem_nil).resolve_right fun touched => other touched.1]
      exact covers.shapes y
  · rw [frame.overlap]
    rw [frame'.overlap] at overlap
    exact covers.overlaps y z overlap

/-- Inference that suspects what is nested too deep covers inference that goes deeper. -/
theorem suspecting_covers {budget budget' : Nat} (deeper : budget ≤ budget') (e : Value) :
    Follows (fun _ => False) Shapes.Covers Covers (inferTaking suspect budget e) (infer budget' e) := by
  induction budget using Nat.strongRecOn generalizing budget' e with
  | ind budget ih =>
    cases budget with
    | zero => exact suspect_covers budget' e
    | succ budget =>
      obtain ⟨budget',rfl⟩ : ∃ k, budget' = k + 1 := ⟨budget' - 1,by omega⟩
      have here (e : Value) := ih budget (Nat.lt_succ_self _) (Nat.le_of_succ_le_succ deeper) e
      have below (e : Value) := ih (budget - 1) (by omega)
        (Nat.sub_le_sub_right (Nat.le_of_succ_le_succ deeper) 1) e
      rw [inferTaking_succ,infer_succ]
      refine ofValue_follows covers_rules trivial fun items found => ?_
      refine ofForm_follows covers_rules found trivial (fun e _ => here e) fun inner shown => ?_
      obtain ⟨distinct,_⟩ := binding_parts covers_rules.parts found trivial shown
      refine nestedPass_covers distinct below (fun e => ?_) fun e => infer_frames _ fun _ _ => trivial
      exact inferTaking_frames (fun e _ => suspect_frames fun _ _ => trivial) _ fun _ _ => trivial

end Shape

namespace Shapes

/-- A step that raises the flag if it does more than to make shapes cyclic, and takes back no overlap. -/
structure Flagged (s t : Shapes) : Prop where
  bounded : t.Bounded
  flag : s.changed = true → t.changed = true
  shapes : t.changed = false → ∀ x, t.shapeOf x = s.shapeOf x ∨ t.shapeOf x = .cyclic
  overlaps : ∀ a b, s.overlap a b = true → t.overlap a b = true

namespace Flagged

variable {s t u : Shapes}

theorem refl (bounded : s.Bounded) : s.Flagged s := ⟨bounded,id,fun _ _ => .inl rfl,fun _ _ => id⟩

theorem trans (first : s.Flagged t) (second : t.Flagged u) : s.Flagged u where
  bounded := second.bounded
  flag raised := second.flag (first.flag raised)
  shapes calm x := by
    have before : t.changed = false := by
      rw [Bool.eq_false_iff]
      intro raised
      rw [second.flag raised] at calm
      cases calm
    rcases second.shapes calm x with same | grown
    · rw [same]
      exact first.shapes before x
    · exact .inr grown
  overlaps a b overlap := second.overlaps a b (first.overlaps a b overlap)

theorem foldl {α : Type} {step : Shapes → α → Shapes}
    (steps : ∀ (s : Shapes) a, s.Bounded → s.Flagged (step s a)) (items : List α)
    (start : s.Flagged t) : s.Flagged (items.foldl step t) := by
  induction items generalizing t with
  | nil => exact start
  | cons a items ih => exact ih (start.trans (steps t a start.bounded))

theorem frame {touched : String → Prop} (frame : Frame touched [] [] s t) : s.Flagged t where
  bounded := frame.bounded
  flag := frame.flag
  shapes _ x := (frame.shapes x not_mem_nil).imp_right And.right
  overlaps a b overlap := by rwa [frame.overlap]

theorem grow (bounded : s.Bounded) (x : String) (shape : Shape) : s.Flagged (s.grow x shape) := by
  rcases grow_changed s x shape with same | raised
  · rw [same]
    exact .refl bounded
  · refine ⟨fun y g found => ?_,fun _ => raised,fun calm => ?_,fun a b overlap => ?_⟩
    · exact (grow_skipped s x shape).2 ▸ bounded y g (grow_group s x shape y ▸ found)
    · rw [raised] at calm
      cases calm
    · rwa [overlap_congr (grow_group s x shape)]

theorem merge (bounded : s.Bounded) (x source : String) : s.Flagged (s.merge x source) where
  bounded := merge_bounded bounded
  flag raised := by rwa [merge_changed]
  shapes _ y := .inl (merge_shape s x source y)
  overlaps a b overlap := (overlap_merge bounded a b).mpr (.inl overlap)

end Flagged

end Shapes

/-- What covers the state after a step that raises no flag covers the state before. -/
theorem Shapes.Covers.calm {s t u : Shapes} (covers : s.Covers u) (bounded : t.Bounded)
    (flagged : t.Flagged u) (calm : u.changed = false) : s.Covers t where
  shapes x := by
    have here := covers.shapes x
    rcases flagged.shapes calm x with same | grown
    · rwa [same] at here
    · rw [grown] at here
      rcases here with cyclic | cyclic | ⟨_,other⟩
      · exact .inr (.inl cyclic)
      · exact .inr (.inl cyclic)
      · cases other
  overlaps a b overlap := covers.overlaps a b (flagged.overlaps a b overlap)
  bounded := covers.bounded
  bounded' := bounded

namespace Shape

open Shapes

variable {infer : Value → ShapeM Shape} {touched : String → Prop} {s : Shapes}

theorem visit_flagged {b : Binding} (frames : Frames touched (infer b.init)) (bounded : s.Bounded) :
    s.Flagged (visit infer b s) := by
  have inferred := Flagged.frame (frames s bounded)
  have grown := inferred.trans (.grow inferred.bounded b.name ((infer b.init).run s).1)
  unfold visit record
  split
  · split
    · exact grown
    · exact grown.trans (.merge grown.bounded _ _)
  · exact grown

theorem raised_flagged (form : LetForm) (bounded : s.Bounded) : s.Flagged
    (if form.kind = .recursive then form.names.foldl (fun s x => s.grow x .cyclic) s else s) := by
  split
  · exact Flagged.foldl (fun s x bounded => .grow bounded x .cyclic) form.names (.refl bounded)
  · exact .refl bounded

theorem visits_flagged (frames : ∀ e, Frames touched (infer e)) (bindings : List Binding) {t : Shapes}
    (start : s.Flagged t) : s.Flagged (bindings.foldl (fun s b => visit infer b s) t) :=
  Flagged.foldl (fun _ b bounded => visit_flagged (frames b.init) bounded) bindings start

theorem pass_flagged (frames : ∀ e, Frames touched (infer e)) (form : LetForm) (bounded : s.Bounded) :
    s.Flagged ((pass infer form).run s).2 := by
  have visited := visits_flagged frames form.bindings (raised_flagged form bounded)
  rw [pass_runs]
  exact visited.trans (.frame (frames form.body _ visited.bounded))

end Shape

namespace ShapeResult

def rounds (pass : ShapeM Shape) : Nat → Shapes → Shapes
  | 0,s => s
  | n + 1,s => rounds pass n (pass.run s).2

/-- The shapes found if every part that is nested too deep is suspected. -/
def cautious (form : LetForm) (start : Shapes) (analysisDepth : Nat) : Shapes :=
  rounds (pass (inferTaking suspect (analysisDepth - 1)) form) (roundLimit form) start

section Rounds

variable {pass pass' : ShapeM Shape} (passes : Shape.Follows (fun _ => False) Shapes.Covers Shape.Covers pass pass')

include passes

variable {s t : Shapes}

theorem round_covers (covers : s.Covers t) : (pass.run s).2.Covers (pass'.run t).2 :=
  ((passes.keeps s t covers).resolve_left id).2

/-- Further passes keep covering a state that a pass does not raise. -/
theorem rounds_covers_calm (flagged : t.Flagged (pass'.run t).2)
    (calm : (pass'.run t).2.changed = false) (covers : s.Covers t) (n : Nat) :
    (rounds pass (n + 1) s).Covers (pass'.run t).2 := by
  induction n generalizing s with
  | zero => exact round_covers passes covers
  | succ n ih => exact ih ((round_covers passes covers).calm covers.bounded' flagged calm)

/-- Passes that go on cover passes that stop at one that changes nothing. -/
theorem rounds_covers (flagged : ∀ t : Shapes, t.Bounded → t.Flagged (pass'.run t).2)
    (covers : s.Covers t) (n iterations : Nat) (body : Shape) :
    (rounds pass n s).Covers (iterate pass' n iterations t body).shapes := by
  induction n generalizing s t iterations body with
  | zero => exact covers
  | succ n ih =>
    have start : s.Covers { t with changed := false } :=
      ⟨covers.shapes,covers.overlaps,covers.bounded,covers.bounded'⟩
    rw [iterate_succ]
    split
    · exact ih (round_covers passes start) _ _
    · next calm => exact rounds_covers_calm passes (flagged _ start.bounded') (by simpa using calm) start n

end Rounds

theorem knowing_bounded (known : Table Shape) : (knowing known).Bounded := by
  intro x g found
  rw [infoOf,info?_knowing] at found
  cases entry : known.get? x with
  | none => simp [entry] at found
  | some shape => simp [entry] at found

/-- What a cautious inference finds out under a limit covers what is found out under all larger ones. -/
theorem cautious_covers (form : LetForm) (known : Table Shape) {depth depth' : Nat}
    (deeper : depth ≤ depth') : (cautious form (.knowing known) depth).Covers
      (ofForm form (.knowing known) depth').shapes := by
  have frames (e : Value) : Frames (fun _ => True) (infer (depth' - 1) e) := infer_frames _ fun _ _ => trivial
  refine rounds_covers ?_ (fun t bounded => pass_flagged frames form bounded) (.refl (knowing_bounded known)) _ _ _
  exact pass_covers (suspecting_covers (Nat.sub_le_sub_right deeper 1))

end ShapeResult

namespace Shape

theorem whole_rules : Rules (fun _ => True) Eq Eq :=
  .ofEq (fun _ _ _ _ => ⟨trivial,trivial⟩) (fun _ same => by rw [same]) (fun _ same => by rw [same])
    fun _ _ same => by rw [same]

section Whole

variable {deeper deeper' : Value → ShapeM Shape} (each : ∀ e, Follows (0 < ·) Eq Eq (deeper e) (deeper' e))

include each

theorem pass_whole (form : LetForm) : Follows (0 < ·) Eq Eq (pass deeper form) (pass deeper' form) := by
  refine pass_follows (fun _ => rfl) (fun b _ => each b.init) (each form.body) ?_ ?_
  · rintro x _ a _ s _ rfl rfl
    rfl
  · rintro b _ source _ _ _ s _ rfl
    rfl

theorem nestedPass_whole (form : LetForm) :
    Follows (0 < ·) Eq Eq (nestedPass deeper form) (nestedPass deeper' form) := by
  have passes := pass_whole each form
  refine ⟨fun s early => passes.stays (enterForm form s) early,?_⟩
  rintro s _ rfl
  refine (passes.keeps (enterForm form s) (enterForm form s) rfl).imp_right ?_
  rintro ⟨shape,state⟩
  rw [nestedPass_run,nestedPass_run]
  unfold enterForm at shape state
  dsimp only
  rw [shape,state]
  exact ⟨rfl,rfl⟩

end Whole

/-- Unless it leaves something out, inference comes to the same result as one that goes deeper. -/
theorem infer_whole {budget budget' : Nat} (deeper : budget ≤ budget') (e : Value) :
    Follows (0 < ·) Eq Eq (infer budget e) (infer budget' e) := by
  induction budget using Nat.strongRecOn generalizing budget' e with
  | ind budget ih =>
    cases budget with
    | zero => exact ⟨fun _ _ => Nat.succ_pos _,fun _ _ _ => .inl (Nat.succ_pos _)⟩
    | succ budget =>
      obtain ⟨budget',rfl⟩ : ∃ k, budget' = k + 1 := ⟨budget' - 1,by omega⟩
      have here (e : Value) := ih budget (Nat.lt_succ_self _) (Nat.le_of_succ_le_succ deeper) e
      have below (e : Value) := ih (budget - 1) (by omega)
        (Nat.sub_le_sub_right (Nat.le_of_succ_le_succ deeper) 1) e
      rw [infer_succ,infer_succ]
      refine ofValue_follows whole_rules trivial fun items found => ?_
      exact ofForm_follows whole_rules found trivial (fun e _ => here e) fun inner _ =>
        nestedPass_whole below inner

end Shape

namespace ShapeResult

theorem iterate_whole {pass pass' : ShapeM Shape} (passes : Shape.Follows (0 < ·) Eq Eq pass pass')
    (rounds iterations : Nat) (s : Shapes) (body : Shape) :
    (0 < s.skipped → 0 < (iterate pass rounds iterations s body).shapes.skipped) ∧
      ((iterate pass rounds iterations s body).shapes.skipped = 0 →
        iterate pass' rounds iterations s body = iterate pass rounds iterations s body) := by
  induction rounds generalizing iterations s body with
  | zero => exact ⟨id,fun _ => rfl⟩
  | succ rounds ih =>
    have stays := passes.stays { s with changed := false }
    have keeps := passes.keeps { s with changed := false } _ rfl
    obtain ⟨later,whole⟩ := ih (iterations + 1) (pass.run { s with changed := false }).2
      (pass.run { s with changed := false }).1
    rw [iterate_succ,iterate_succ]
    by_cases changed : (pass.run { s with changed := false }).2.changed = true
    · rw [if_pos changed]
      refine ⟨fun early => later (stays early),fun none => ?_⟩
      obtain ⟨shape,state⟩ := keeps.resolve_left fun early => (later early).ne' none
      rw [← shape,← state,if_pos changed]
      exact whole none
    · rw [if_neg changed]
      refine ⟨stays,fun none => ?_⟩
      obtain ⟨shape,state⟩ := keeps.resolve_left fun early => early.ne' none
      rw [← shape,← state,if_neg changed]

/-- A limit that is not reached makes no difference. A tree found by a cautious inference, which takes what
is nested too deep for a cycle, is a tree under every larger limit. -/
theorem tree_under_limits (form : LetForm) (known : Table Shape) {depth depth' : Nat}
    (deeper : depth ≤ depth') :
    ((ofForm form (.knowing known) depth).shapes.skipped = 0 →
      ofForm form (.knowing known) depth' = ofForm form (.knowing known) depth) ∧
    ∀ x, (cautious form (.knowing known) depth).shapeOf x = .tree →
      (ofForm form (.knowing known) depth').shapes.shapeOf x = .tree := by
  constructor
  · have passes := Shape.pass_whole (fun e => Shape.infer_whole (Nat.sub_le_sub_right deeper 1) e) form
    exact (iterate_whole passes _ _ _ _).2
  · intro x tree
    have covers := (cautious_covers form known deeper).shapes x
    rw [tree] at covers
    rcases covers with same | other | ⟨other,_⟩
    · exact same.symm
    · cases other
    · cases other

/-- `(let ((x (if c (f)))) x)` -/
def choiceForm : LetForm where
  kind := .plain
  bindings := [⟨"x",.pair 4 (.sym "if") (.pair 3 (.sym "c") (.pair 2 (.pair 1 (.sym "f") .nil) .nil))⟩]
  body := .sym "x"

/-- The result of a call may be shared. If the call is nested too deep, nothing is left of that. -/
theorem choice_turned_tree :
    (ofForm choiceForm (.knowing []) 3).shapes.shapeOf "x" = .dag ∧
    (ofForm choiceForm (.knowing []) 2).shapes.shapeOf "x" = .tree ∧
    (cautious choiceForm (.knowing []) 2).shapeOf "x" = .cyclic := by
  decide +kernel

/-- `(let ((x (cons 1 2)) (y (if x (f (g 1))))) y)` -/
def mixedForm : LetForm where
  kind := .plain
  bindings := [
    ⟨"x",.pair 2 (.sym "cons") (.pair 1 (.int 1) (.pair 0 (.int 2) .nil))⟩,
    ⟨"y",.pair 9 (.sym "if") (.pair 8 (.sym "x") (.pair 7 (.pair 6 (.sym "f") (.pair 5
      (.pair 4 (.sym "g") (.pair 3 (.int 1) .nil)) .nil)) .nil))⟩]
  body := .sym "y"

/-- What is left out of one binding does no harm to another. -/
theorem mixed_stays_tree : 3 ≤ 100 ∧ (ofForm mixedForm (.knowing []) 3).shapes.skipped ≠ 0 ∧
    (cautious mixedForm (.knowing []) 3).shapeOf "x" = .tree ∧
    (ofForm mixedForm (.knowing []) 100).shapes.shapeOf "x" = .tree := by
  have deeper : 3 ≤ 100 := by decide
  have sure : (cautious mixedForm (.knowing []) 3).shapeOf "x" = .tree := by decide +kernel
  refine ⟨deeper,by decide +kernel,sure,?_⟩
  exact (tree_under_limits mixedForm [] deeper).2 "x" sure

end ShapeResult

end StagedLisp
