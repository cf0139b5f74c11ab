import StagedLisp.Proofs.Shape.Depth

/-! What a pass raises. Shapes only grow, and the flag goes up for a reason: the shape of some name grew, or
a name of the form was met for the first time. Which names an expression assigns does not depend on the
state, so that a second run over it finds them assigned. -/
namespace StagedLisp

namespace Shape

theorem rank_le_cyclic (a : Shape) : a.rank ≤ 3 := by
  cases a <;> decide

theorem rank_cyclic_le {a : Shape} : 3 ≤ a.rank ↔ a = cyclic := by
  cases a <;> decide

end Shape

namespace Shapes

variable {names : List String} {s t u : Shapes} {x y : String}

theorem info?_grow (s : Shapes) (x y : String) (shape : Shape) :
    (s.grow x shape).info? y = none ↔ y ≠ x ∧ s.info? y = none := by
  have set (info : ShapeInfo) : Table.get? (s.infos.set x info) y = none ↔ y ≠ x ∧ s.info? y = none := by
    rw [Table.get?_set]
    by_cases here : y = x <;> simp [here,info?]
  unfold grow
  cases found : s.info? x with
  | none => exact set _
  | some info =>
    dsimp only
    split
    · refine ⟨fun absent => ⟨?_,absent⟩,And.right⟩
      rintro rfl
      cases found.symm.trans absent
    · exact set _

/-- The flag goes up where the shape grows, or where nothing was known of the name. -/
theorem grow_raised {shape : Shape} (raised : (s.grow x shape).changed = true) : s.changed = true ∨
    (s.shapeOf x).rank < ((s.grow x shape).shapeOf x).rank ∨ s.info? x = none := by
  rw [grow_shape,if_pos rfl]
  unfold grow at raised
  cases found : s.info? x with
  | none => exact .inr (.inr rfl)
  | some info =>
    have here : s.shapeOf x = info.shape := by rw [shapeOf,found]
    rw [found] at raised
    dsimp only at raised
    split at raised
    · exact .inl raised
    · next other =>
      rw [here]
      refine .inr (.inl ?_)
      revert other
      cases info.shape <;> cases shape <;> decide

/-- What a step over a form with the given names does to a state. -/
structure Rises (names : List String) (s t : Shapes) : Prop where
  flag : s.changed = true → t.changed = true
  known : ∀ x, t.info? x = none → s.info? x = none
  grows : ∀ x, (s.shapeOf x).rank ≤ (t.shapeOf x).rank
  reason : t.changed = true → s.changed = true ∨ (∃ x, (s.shapeOf x).rank < (t.shapeOf x).rank) ∨
    ∃ x ∈ names, s.info? x = none

namespace Rises

theorem refl (s : Shapes) : Rises names s s := ⟨id,fun _ => id,fun _ => le_rfl,.inl⟩

theorem trans (first : Rises names s t) (second : Rises names t u) : Rises names s u where
  flag raised := second.flag (first.flag raised)
  known x absent := first.known x (second.known x absent)
  grows x := (first.grows x).trans (second.grows x)
  reason raised := by
    rcases second.reason raised with before | ⟨x,grown⟩ | ⟨x,named,absent⟩
    · refine (first.reason before).imp_right (.imp_left ?_)
      exact fun ⟨x,grown⟩ => ⟨x,grown.trans_le (second.grows x)⟩
    · exact .inr (.inl ⟨x,(first.grows x).trans_lt grown⟩)
    · exact .inr (.inr ⟨x,named,first.known x absent⟩)

theorem mono (rises : Rises [] s t) : Rises names s t where
  flag := rises.flag
  known := rises.known
  grows := rises.grows
  reason raised := by
    rcases rises.reason raised with before | grown | ⟨_,none,_⟩
    · exact .inl before
    · exact .inr (.inl grown)
    · cases none

theorem grow (s : Shapes) {shape : Shape} (allowed : x ∈ names ∨ shape = .cyclic) :
    Rises names s (s.grow x shape) where
  flag raised := by
    rcases grow_changed s x shape with same | up
    · rwa [same]
    · exact up
  known y absent := ((info?_grow s x y shape).mp absent).2
  grows y := by
    rw [grow_shape]
    split
    · next here => exact here ▸ Shape.rank_join_left _ _
    · exact le_rfl
  reason raised := by
    rcases grow_raised raised with before | grown | absent
    · exact .inl before
    · exact .inr (.inl ⟨x,grown⟩)
    · rcases allowed with named | rfl
      · exact .inr (.inr ⟨x,named,absent⟩)
      · refine .inr (.inl ⟨x,?_⟩)
        rw [grow_shape,if_pos rfl,shapeOf,absent]
        decide

theorem cyclic (rises : Rises names s t) (before : s.shapeOf x = .cyclic) : t.shapeOf x = .cyclic := by
  have grown := rises.grows x
  rw [before] at grown
  exact Shape.rank_cyclic_le.mp grown

end Rises

theorem info?_ensureGroup (s : Shapes) (x y : String) (absent : (s.ensureGroup x).2.info? y = none) :
    s.info? y = none := by
  unfold ensureGroup at absent
  cases found : s.groupOf? x with
  | some g => rwa [found] at absent
  | none =>
    rw [found] at absent
    have entered : Table.get? (s.infos.set x _) y = none := absent
    rw [Table.get?_set] at entered
    split at entered
    · cases entered
    · exact entered

theorem info?_merge (s : Shapes) (x source y : String) (absent : (s.merge x source).info? y = none) :
    s.info? y = none := by
  refine info?_ensureGroup s source y ?_
  unfold merge at absent
  generalize s.ensureGroup source = ensured at *
  obtain ⟨g,t⟩ := ensured
  dsimp only at absent ⊢
  split at absent
  · split at absent
    · exact absent
    · rwa [info?_regroup,Option.map_eq_none_iff] at absent
  · have entered : Table.get? (t.infos.set x _) y = none := absent
    rw [Table.get?_set] at entered
    split at entered
    · cases entered
    · exact entered

theorem Rises.merge (s : Shapes) (x source : String) : Rises names s (s.merge x source) where
  flag raised := by rw [merge_changed]; exact raised
  known y absent := info?_merge s x source y absent
  grows y := (congrArg Shape.rank (merge_shape s x source y).symm).le
  reason raised := by rw [merge_changed] at raised; exact .inl raised

/-- What two runs do to their states with the same expression, or the same form with the given names. The
second one changes no shape, but for names that both make cyclic; if it raises the flag, this is said of
names outside the form only. -/
structure Echoes (names : List String) (s t s' t' : Shapes) : Prop where
  first : Rises names s s'
  second : Rises names t t'
  shapes : ∀ x, x ∉ names ∨ t'.changed = false →
    t'.shapeOf x = t.shapeOf x ∨ t'.shapeOf x = .cyclic ∧ s'.shapeOf x = .cyclic

namespace Echoes

variable {s' t' u' : Shapes}

theorem refl (s t : Shapes) : Echoes names s t s t := ⟨.refl s,.refl t,fun _ _ => .inl rfl⟩

theorem trans (before : Echoes names s s' t t') (after : Echoes names t t' u u') : Echoes names s s' u u' where
  first := before.first.trans after.first
  second := before.second.trans after.second
  shapes x still := by
    have calm : x ∉ names ∨ t'.changed = false := by
      refine still.imp_right fun lowered => ?_
      rw [Bool.eq_false_iff] at lowered ⊢
      exact fun raised => lowered (after.second.flag raised)
    rcases after.shapes x still with same | both
    · rw [same]
      exact (before.shapes x calm).imp_right (And.imp_right after.first.cyclic)
    · exact .inr both

theorem mono (echoes : Echoes [] s t s' t') : Echoes names s t s' t' :=
  ⟨echoes.first.mono,echoes.second.mono,fun x _ => echoes.shapes x (.inl List.not_mem_nil)⟩

theorem grow (s t : Shapes) {a b : Shape} (allowed : x ∈ names ∨ a = .cyclic ∧ b = .cyclic) :
    Echoes names s t (s.grow x a) (t.grow x b) where
  first := .grow s (allowed.imp_right And.left)
  second := .grow t (allowed.imp_right And.right)
  shapes y still := by
    rcases grow_changed t x b with same | raised
    · rw [same]
      exact .inl rfl
    · -- The flag is up, so the name is not one of the form.
      have outside : y ∉ names := still.resolve_right (by rw [raised]; decide)
      rw [grow_shape,grow_shape]
      by_cases here : y = x
      · subst here
        obtain ⟨rfl,rfl⟩ := allowed.resolve_left outside
        rw [if_pos rfl,if_pos rfl]
        exact .inr ⟨Shape.join_cyclic _,Shape.join_cyclic _⟩
      · rw [if_neg here]
        exact .inl rfl

theorem merge (s t : Shapes) (x source : String) : Echoes names s t (s.merge x source) (t.merge x source) :=
  ⟨.merge s x source,.merge t x source,fun y _ => .inl (merge_shape t x source y)⟩

end Echoes

end Shapes

namespace Shape

open Shapes

variable {deeper : Value → ShapeM Shape} {names : List String} {x : ShapeM α} {α : Type}

/-- Two runs of a computation do the same to their states, but for the shapes of the names. -/
def Repeats (names : List String) {α : Type} (x : ShapeM α) : Prop :=
  ∀ s t, Echoes names s t (x.run s).2 (x.run t).2

theorem Repeats.rises (repeats : Repeats [] x) (s : Shapes) : Rises [] s (x.run s).2 :=
  (repeats s s).first

theorem Repeats.follows (repeats : Repeats [] x) (s t : Shapes) :
    Follows (fun _ => False) (Echoes names s t) (fun _ _ => True) x x :=
  ⟨fun _ => False.elim,fun s' t' echoes => .inr ⟨trivial,echoes.trans (repeats s' t').mono⟩⟩

theorem repeats_of_follows (follows : ∀ s t, Follows (fun _ => False) (Echoes names s t) (fun _ _ => True) x x) :
    Repeats names x :=
  fun s t => (((follows s t).keeps s t (.refl s t)).resolve_left id).2

theorem echo_rules (s t : Shapes) : Rules (fun _ => True) (Echoes [] s t) fun _ _ => True where
  parts _ _ _ _ := ⟨trivial,trivial⟩
  same _ := trivial
  name _ _ := trivial
  joins _ := trivial
  calls _ := trivial
  constructs _ _ _ := trivial
  assigns _ _ echoes := echoes.trans (.grow _ _ (.inr ⟨rfl,rfl⟩))

theorem pass_repeats (each : ∀ e, Repeats [] (deeper e)) (form : LetForm) :
    Repeats form.names (pass deeper form) := by
  refine repeats_of_follows fun s t => ?_
  refine pass_follows (fun _ => trivial) (fun b _ => (each b.init).follows s t) ((each form.body).follows s t) ?_ ?_
  · intro x named _ _ s' t' _ echoes
    exact echoes.trans (.grow s' t' (.inl named))
  · intro b _ source _ _ _ s' t' echoes
    exact echoes.trans (.merge s' t' b.name source)

/-- An inner form assigns names outside it, and what it does to its own names is taken back. -/
theorem nestedPass_repeats (each : ∀ e, Repeats [] (deeper e)) (form : LetForm) :
    Repeats [] (nestedPass deeper form) := by
  intro s t
  have inner := pass_repeats each form (enterForm form s) (enterForm form t)
  have infos := info?_nestedPass deeper form
  have shape (s : Shapes) (y : String) : ((nestedPass deeper form).run s).2.shapeOf y =
      if y ∈ form.names then s.shapeOf y
      else ((pass deeper form).run (enterForm form s)).2.shapeOf y := by
    simp only [shapeOf_eq,infoOf_nestedPass]
    split <;> rfl
  have entered (s : Shapes) {y : String} (outside : y ∉ form.names) :
      (enterForm form s).shapeOf y = s.shapeOf y := by
    rw [shapeOf_eq,shapeOf_eq,infoOf_enterForm,if_neg outside]
  have rises {s : Shapes}
      (inside : Rises form.names (enterForm form s) ((pass deeper form).run (enterForm form s)).2) :
      Rises [] s ((nestedPass deeper form).run s).2 := by
    refine ⟨fun raised => raised,fun y absent => ?_,fun y => ?_,.inl⟩
    · rw [infos] at absent
      split at absent
      · exact absent
      · next outside =>
        have before := inside.known y absent
        rwa [info?_enterForm,if_neg outside] at before
    · rw [shape]
      split
      · exact le_rfl
      · next outside => exact entered s outside ▸ inside.grows y
  refine ⟨rises inner.first,rises inner.second,fun y _ => ?_⟩
  rw [shape,shape]
  split
  · exact .inl rfl
  · next outside =>
    rw [← entered t outside]
    exact inner.shapes y (.inl outside)

section Known

variable (each : ∀ e, Repeats [] (deeper e)) {s : Shapes} {x : String}

include each

theorem visit_known {b : Binding} (absent : (visit deeper b s).info? x = none) : x ≠ b.name ∧ s.info? x = none := by
  have grown : (((deeper b.init).run s).2.grow b.name ((deeper b.init).run s).1).info? x = none := by
    unfold visit record at absent
    split at absent
    · split at absent
      · exact absent
      · exact info?_merge _ _ _ _ absent
    · exact absent
  obtain ⟨other,before⟩ := (info?_grow _ _ _ _).mp grown
  exact ⟨other,((each b.init).rises s).known x before⟩

theorem visits_known {bindings : List Binding}
    (absent : (bindings.foldl (fun s b => visit deeper b s) s).info? x = none) :
    x ∉ bindings.map Binding.name ∧ s.info? x = none := by
  induction bindings generalizing s with
  | nil => exact ⟨List.not_mem_nil,absent⟩
  | cons b bindings ih =>
    obtain ⟨others,after⟩ := ih absent
    obtain ⟨other,before⟩ := visit_known each after
    exact ⟨List.not_mem_cons_of_ne_of_not_mem other others,before⟩

theorem pass_known {form : LetForm} (named : x ∈ form.names) : ((pass deeper form).run s).2.info? x ≠ none := by
  rw [pass_runs]
  intro absent
  exact (visits_known each ((each form.body).rises _ |>.known x absent)).1 named

end Known

theorem infer_repeats (budget : Nat) (e : Value) : Repeats [] (infer budget e) := by
  induction budget using Nat.strongRecOn generalizing e with
  | ind budget ih =>
    cases budget with
    | zero =>
      have skipped (s : Shapes) : Rises [] s ((infer 0 e).run s).2 := ⟨id,fun _ => id,fun _ => le_rfl,.inl⟩
      exact fun s t => ⟨skipped s,skipped t,fun _ _ => .inl rfl⟩
    | succ budget =>
      rw [infer_succ]
      refine repeats_of_follows fun s t => ?_
      refine ofValue_follows (echo_rules s t) trivial fun items found => ?_
      refine ofForm_follows (echo_rules s t) found trivial
        (fun e _ => (ih budget (Nat.lt_succ_self _) e).follows s t) fun inner _ => ?_
      exact (nestedPass_repeats (ih (budget - 1) (by omega)) inner).follows s t

end Shape

end StagedLisp
