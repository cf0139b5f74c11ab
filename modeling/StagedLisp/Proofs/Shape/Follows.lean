import StagedLisp.Proofs.Form.Symbols
import StagedLisp.Proofs.Shape.Passes

/-! Two inferences side by side. If their answers agree in some way on names and on parts that are inferred
alike, and the rules for forms respect this, they agree on every expression. -/
namespace StagedLisp.Shape

open List View Shapes

/-- From related states the two computations come to related results in related states, unless the first
has left out more parts than it may. -/
structure Follows (lost : Nat → Prop) (R : Shapes → Shapes → Prop) {α β : Type} (Q : α → β → Prop)
    (x : ShapeM α) (y : ShapeM β) : Prop where
  stays : ∀ s, lost s.skipped → lost (x.run s).2.skipped
  keeps : ∀ s t, R s t → lost (x.run s).2.skipped ∨ Q (x.run s).1 (y.run t).1 ∧ R (x.run s).2 (y.run t).2

variable {lost : Nat → Prop} {R : Shapes → Shapes → Prop} {Q : Shape → Shape → Prop}

namespace Follows

variable {α β γ δ : Type} {P : α → β → Prop} {P' : γ → δ → Prop}

theorem pure {a : α} {b : β} (holds : P a b) : Follows lost R P (Pure.pure a : ShapeM α) (Pure.pure b : ShapeM β) :=
  ⟨fun _ => id,fun _ _ related => .inr ⟨holds,related⟩⟩

theorem bind {x : ShapeM α} {y : ShapeM β} {f : α → ShapeM γ} {g : β → ShapeM δ}
    (first : Follows lost R P x y) (total : ∀ a, ∃ b, P a b)
    (next : ∀ a b, P a b → Follows lost R P' (f a) (g b)) : Follows lost R P' (x >>= f) (y >>= g) := by
  have run (s : Shapes) : (x >>= f).run s = (f (x.run s).1).run (x.run s).2 := rfl
  have run' (t : Shapes) : (y >>= g).run t = (g (y.run t).1).run (y.run t).2 := rfl
  have stays (a : α) : ∀ s, lost s.skipped → lost ((f a).run s).2.skipped := by
    obtain ⟨b,holds⟩ := total a
    exact (next a b holds).stays
  refine ⟨fun s early => ?_,fun s t related => ?_⟩
  · rw [run]
    exact stays _ _ (first.stays s early)
  · rw [run,run']
    rcases first.keeps s t related with early | ⟨holds,related⟩
    · exact .inl (stays _ _ early)
    · exact (next _ _ holds).keeps _ _ related

theorem modify {f g : Shapes → Shapes} (stays : ∀ s, (f s).skipped = s.skipped)
    (keeps : ∀ s t, R s t → R (f s) (g t)) :
    Follows lost R (fun _ _ => True) (MonadStateOf.modifyGet fun s => ((),f s) : ShapeM PUnit)
      (MonadStateOf.modifyGet fun t => ((),g t) : ShapeM PUnit) := by
  refine ⟨fun s early => ?_,fun s t related => .inr ⟨trivial,keeps s t related⟩⟩
  have after : lost (f s).skipped := (stays s).symm ▸ early
  exact after

theorem reads {f : Shapes → α} {g : Shapes → β} (holds : ∀ s t, R s t → P (f s) (g t)) :
    Follows lost R P (do return f (← MonadState.get) : ShapeM α) (do return g (← MonadState.get) : ShapeM β) :=
  ⟨fun _ => id,fun s t related => .inr ⟨holds s t related,related⟩⟩

theorem mapM {f g : Value → ShapeM Shape} (same : ∀ a, Q a a) {parts : List Value}
    (each : ∀ e ∈ parts, Follows lost R Q (f e) (g e)) :
    Follows lost R (List.Forall₂ Q) (parts.mapM f) (parts.mapM g) := by
  induction parts with
  | nil => exact .pure .nil
  | cons e parts ih =>
    obtain ⟨first,rest⟩ := forall_mem_cons.mp each
    rw [mapM_cons,mapM_cons]
    refine first.bind (fun a => ⟨a,same a⟩) fun a b holds => ?_
    refine (ih rest).bind (fun as => ⟨as,forall₂_same.mpr fun a _ => same a⟩) fun as bs others => ?_
    exact .pure (.cons holds others)

theorem forM {f g : α → ShapeM PUnit} {items : List α}
    (each : ∀ a ∈ items, Follows lost R (fun _ _ => True) (f a) (g a)) :
    Follows lost R (fun _ _ => True) (items.forM f) (items.forM g) := by
  induction items with
  | nil => exact .pure trivial
  | cons a items ih =>
    obtain ⟨first,rest⟩ := forall_mem_cons.mp each
    exact first.bind (fun _ => ⟨(),trivial⟩) fun _ _ _ => ih rest

end Follows

/-- Related states and answers for which inference goes on alike, in expressions of some kind. -/
structure Rules (H : Value → Prop) (R : Shapes → Shapes → Prop) (Q : Shape → Shape → Prop) : Prop where
  parts : Value.Hereditary H
  same : ∀ a, Q a a
  name : ∀ {x s t}, H (.sym x) → R s t → Q (s.shapeOf x) (t.shapeOf x)
  joins : ∀ {as bs}, List.Forall₂ Q as bs → Q (joinAll as) (joinAll bs)
  calls : ∀ {as bs}, List.Forall₂ Q as bs → Q (ofCall as) (ofCall bs)
  constructs : ∀ {as bs args s t}, List.Forall₂ Q as bs → (∀ e ∈ args, H e) → R s t →
    Q (construction as (s.anyAlias args)) (construction bs (t.anyAlias args))
  assigns : ∀ {e x value s t}, e.formItems? = some [.sym "set!",.sym x,value] → H e → R s t →
    R (s.grow x .cyclic) (t.grow x .cyclic)

/-- Answers that are the same need only be so for names and for the overlap of arguments. -/
theorem Rules.ofEq {H : Value → Prop} (parts : Value.Hereditary H)
    (name : ∀ {x s t}, H (.sym x) → R s t → s.shapeOf x = t.shapeOf x)
    (aliases : ∀ {args s t}, (∀ e ∈ args, H e) → R s t → s.anyAlias args = t.anyAlias args)
    (assigns : ∀ {e x value s t}, e.formItems? = some [.sym "set!",.sym x,value] → H e → R s t →
      R (s.grow x .cyclic) (t.grow x .cyclic)) : Rules H R Eq := by
  have lists {as bs : List Shape} (same : List.Forall₂ Eq as bs) : as = bs := by
    rwa [forall₂_eq_eq_eq] at same
  refine ⟨parts,fun _ => rfl,name,?_,?_,?_,assigns⟩
  · intro as bs same
    rw [lists same]
  · intro as bs same
    rw [lists same]
  · intro as bs args s t same each related
    rw [lists same,aliases each related]

section Rules

variable {H : Value → Prop} (rules : Rules H R Q) {infer infer' deeper deeper' : Value → ShapeM Shape}

include rules

theorem ofForm_follows {e : Value} {items : List Value} (found : e.formItems? = some items) (here : H e)
    (infers : ∀ e, H e → Follows lost R Q (infer e) (infer' e))
    (nested : ∀ inner, ofItems items = .binding inner →
      Follows lost R Q (nestedPass deeper inner) (nestedPass deeper' inner)) :
    Follows lost R Q (ofForm infer deeper items) (ofForm infer' deeper' items) := by
  have each : ∀ part ∈ items, H part := rules.parts.items here (formItems_head found).1
  have one (a : Shape) : ∃ b, Q a b := ⟨a,rules.same a⟩
  have many (as : List Shape) : ∃ bs, List.Forall₂ Q as bs := ⟨as,forall₂_same.mpr fun a _ => rules.same a⟩
  have all {es : List Value} (among : ∀ e ∈ es, H e) :
      Follows lost R (List.Forall₂ Q) (es.mapM infer) (es.mapM infer') :=
    .mapM rules.same fun e member => infers e (among e member)
  have unknownCall {es : List Value} (among : ∀ e ∈ es, H e) :
      Follows lost R Q (do return ofCall (← es.mapM infer)) (do return ofCall (← es.mapM infer')) :=
    (all among).bind many fun _ _ holds => .pure (rules.calls holds)
  have constant (a : Shape) : Follows lost R Q (Pure.pure a : ShapeM Shape) (Pure.pure a) := .pure (rules.same a)
  obtain ⟨_,first,rest,rfl⟩ := formItems_head found
  have among {view : View} (shown : ofItems (first :: rest) = view)
      (noLet : ∀ inner, view ≠ .binding inner) (noLambda : ∀ params body, view ≠ .lambda params body)
      (part : Value) (member : ([],part) ∈ view.parts) : H part := by
    subst shown
    exact each part (parts_items member noLet noLambda).2
  unfold ofForm
  generalize shown : ofItems (first :: rest) = view at nested
  cases view with
  | inert keyword | lambda params body | setMeta handler => exact constant _
  | binding inner => exact nested inner rfl
  | wrapper keyword operand | scan operand =>
    exact infers operand (among shown (by simp) (by simp) operand (by simp [parts]))
  | conditional test branches =>
    have parts (e : Value) (member : e ∈ test :: branches) : H e :=
      among shown (by simp) (by simp) e (by simpa [parts] using member)
    refine (infers test (parts test mem_cons_self)).bind one fun _ _ _ => ?_
    refine (all fun e member => parts e (.tail _ member)).bind many fun _ _ holds => ?_
    exact .pure (rules.joins (.cons (rules.same _) holds))
  | assign target value =>
    have part := among shown (by simp) (by simp) value (by simp [parts])
    refine (infers value part).bind one fun _ _ _ => ?_
    cases target with
    | sym name =>
      obtain ⟨rfl,rfl⟩ := List.cons.inj (ofItems_shows shown)
      refine Follows.bind (.modify (fun s => (grow_skipped s name .cyclic).1) fun s t related => ?_)
        (fun _ => ⟨(),trivial⟩) fun _ _ _ => constant _
      exact rules.assigns found here related
    | _ => exact constant _
  | misfit keyword parts =>
    obtain ⟨rfl,rfl⟩ := List.cons.inj (ofItems_shows shown)
    obtain ⟨head,others⟩ := forall_mem_cons.mp each
    dsimp only
    split
    · exact constant _
    · exact constant _
    · exact constant _
    · exact constant _
    · exact infers _ (each _ getLastD_mem_cons)
    · exact unknownCall others
  | call head args =>
    have parts (e : Value) (member : e ∈ args) : H e := among shown (by simp) (by simp) e (by simp [parts,member])
    cases head with
    | sym name =>
      dsimp only
      split
      · refine (all parts).bind many fun _ _ holds => ?_
        exact .reads fun s t related => rules.constructs holds parts related
      · split
        · split
          · exact infers _ (parts _ mem_cons_self)
          · exact unknownCall parts
        · split
          · exact (all parts).bind many fun _ _ _ => constant _
          · exact unknownCall parts
    | _ => exact unknownCall parts

theorem ofValue_follows {forms forms' : List Value → ShapeM Shape} {e : Value} (here : H e)
    (each : ∀ items, e.formItems? = some items → Follows lost R Q (forms items) (forms' items)) :
    Follows lost R Q (ofValue forms e) (ofValue forms' e) := by
  cases e with
  | sym name => exact .reads fun s t related => rules.name here related
  | pair cell head tail =>
    rw [ofValue,ofValue]
    split
    · next items found => exact each items found
    · exact .pure (rules.same _)
  | _ => exact .pure (rules.same _)

end Rules

/-- A pass over a form follows another one if related states stay so when names of the form grow and are
merged. -/
theorem pass_follows {form : LetForm} {infer infer' : Value → ShapeM Shape} (same : ∀ a, Q a a)
    (inits : ∀ b ∈ form.bindings, Follows lost R Q (infer b.init) (infer' b.init))
    (body : Follows lost R Q (infer form.body) (infer' form.body))
    (grows : ∀ x ∈ form.names, ∀ a b s t, Q a b → R s t → R (s.grow x a) (t.grow x b))
    (merges : ∀ b ∈ form.bindings, ∀ source part, exposed? b.init = some (source,part) →
      source ≠ b.name → ∀ s t, R s t → R (s.merge b.name source) (t.merge b.name source)) :
    Follows lost R Q (pass infer form) (pass infer' form) := by
  have named {b : Binding} (bound : b ∈ form.bindings) : b.name ∈ form.names := mem_map_of_mem bound
  have unit (_ : PUnit) : ∃ _ : PUnit, True := ⟨(),trivial⟩
  have rest : Follows lost R Q (do form.bindings.forM (visitM infer); infer form.body)
      (do form.bindings.forM (visitM infer'); infer' form.body) := by
    refine Follows.bind (.forM fun b bound => ?_) unit fun _ _ _ => body
    refine (inits b bound).bind (fun a => ⟨a,same a⟩) fun a a' holds => ?_
    refine Follows.bind (.modify (fun s => (grow_skipped s b.name a).1) fun s t related => ?_) unit fun _ _ _ => ?_
    · exact grows b.name (named bound) a a' s t holds related
    · split
      · next source part exposes =>
        split
        · exact .pure trivial
        · next other =>
          exact .modify (fun s => merge_skipped s b.name source)
            fun s t related => merges b bound source part exposes other s t related
      · exact .pure trivial
  have raised (xs : List String) (among : ∀ x ∈ xs, x ∈ form.names) (s t : Shapes) (related : R s t) :
      R (xs.foldl (fun s x => s.grow x .cyclic) s) (xs.foldl (fun s x => s.grow x .cyclic) t) := by
    induction xs generalizing s t with
    | nil => exact related
    | cons x xs ih =>
      obtain ⟨first,others⟩ := forall_mem_cons.mp among
      exact ih others _ _ (grows x first _ _ s t (same _) related)
  have quiet (xs : List String) (s : Shapes) : (xs.foldl (fun s x => s.grow x .cyclic) s).skipped = s.skipped := by
    induction xs generalizing s with
    | nil => rfl
    | cons x xs ih => exact (ih _).trans (grow_skipped s x .cyclic).1
  unfold pass
  dsimp only
  split
  · exact Follows.bind (.modify (quiet _) (raised _ fun _ => id)) unit fun _ _ _ => rest
  · exact rest

end StagedLisp.Shape
