import StagedLisp.Proofs.Analysis
import StagedLisp.Proofs.Shape.Follows

/-! Shape inference looks up the names of the form that it is for, and no others. From two tables of
shapes that agree on these names it comes to the same result. -/
namespace StagedLisp

open List Shapes Table Shape BindingPlan Analysis

variable {names : String → Prop}

theorem Value.Spelled.selects {e : Value} (spelled : e.Spelled names) (select : Selection) :
    (∀ x ∈ selected select e, names x) ∧ ∀ skip, ∀ x ∈ spineSelected select skip e, names x := by
  induction e with
  | sym name =>
    refine ⟨fun x member => ?_,fun skip x member => ?_⟩
    · rw [selected,mem_singleton] at member
      exact member ▸ spelled
    · cases skip <;> simp [spineSelected] at member
  | pair cell head tail ihHead ihTail =>
    have first := (ihHead spelled.1).1
    have rest := (ihTail spelled.2).2
    refine ⟨fun x member => ?_,fun skip x member => ?_⟩
    · rw [selected] at member
      split at member
      · cases member
      · exact (mem_append.mp member).elim (rest 0 x) (first x)
      · exact rest _ x member
    · cases skip with
      | zero =>
        rw [spineSelected] at member
        exact (mem_append.mp member).elim (rest 0 x) (first x)
      | succ skip =>
        rw [spineSelected] at member
        exact rest skip x member
  | _ =>
    refine ⟨fun x member => ?_,fun skip x member => ?_⟩
    · simp [selected] at member
    · cases skip <;> simp [spineSelected] at member

/-- The names and initialisers of the bindings have symbols with the property, and so has the body. -/
def LetForm.Spelled (names : String → Prop) (form : LetForm) : Prop :=
  (∀ b ∈ form.bindings, names b.name ∧ b.init.Spelled names) ∧ form.body.Spelled names

variable {form : LetForm}

theorem LetForm.Spelled.name (spelled : form.Spelled names) : ∀ x ∈ form.names, names x := by
  intro x member
  obtain ⟨b,bound,rfl⟩ := mem_map.mp member
  exact (spelled.1 b bound).1

namespace Table

variable {α β : Type}

theorem get?_map (t : Table α) (f : String × α → String × β) (g : α → β)
    (keys : ∀ entry, f entry = (entry.1,g entry.2)) (x : String) :
    get? (t.map f) x = (t.get? x).map g := by
  induction t with
  | nil => rfl
  | cons entry rest ih =>
    obtain ⟨key,v⟩ := entry
    rw [map_cons,keys,get?_cons,get?_cons,ih]
    split <;> rfl

theorem get?_erase (t : Table α) (x y : String) : (t.erase x).get? y = if y = x then none else t.get? y := by
  induction t with
  | nil =>
    show none = _
    split <;> rfl
  | cons entry rest ih =>
    obtain ⟨key,v⟩ := entry
    unfold erase at ih ⊢
    by_cases here : key = x
    · rw [filter_cons_of_neg (by simp [here]),ih,get?_cons,here]
      split <;> rfl
    · rw [filter_cons_of_pos (by simp [here]),get?_cons,ih,get?_cons]
      by_cases found : y = key
      · rw [if_pos found,if_pos found,if_neg (found ▸ here)]
      · rw [if_neg found,if_neg found]

/-- Look-ups among the names agree. -/
def Agree (names : String → Prop) (t u : Table α) : Prop := ∀ x, names x → t.get? x = u.get? x

variable {t u : Table α}

theorem Agree.set (agree : Agree names t u) (x : String) (v : α) : Agree names (t.set x v) (u.set x v) := by
  intro y named
  rw [get?_set,get?_set,agree y named]

theorem Agree.erase (agree : Agree names t u) (x : String) : Agree names (t.erase x) (u.erase x) := by
  intro y named
  rw [get?_erase,get?_erase,agree y named]

theorem Agree.setAll (agree : Agree names t u) (entries : List (String × α)) :
    Agree names (t.setAll entries) (u.setAll entries) := by
  induction entries generalizing t u with
  | nil => exact agree
  | cons entry entries ih => exact ih (agree.set entry.1 entry.2)

end Table

theorem any_congr_of_mem {α : Type} {l : List α} {p q : α → Bool} (same : ∀ a ∈ l, p a = q a) :
    l.any p = l.any q := by
  rw [Bool.eq_iff_iff,any_eq_true,any_eq_true]
  exact exists_congr fun a => and_congr_right fun member => by rw [same a member]

namespace Shapes

theorem info?_knowing (known : Table Shape) (x : String) :
    (knowing known).info? x = (known.get? x).map fun shape => ⟨shape,none⟩ := by
  refine get?_map known _ _ ?_ x
  exact fun _ => rfl

/-- States that know the same of the names. -/
structure Agree (names : String → Prop) (s t : Shapes) : Prop where
  infos : s.infos.Agree names t.infos
  nextGroup : s.nextGroup = t.nextGroup
  changed : s.changed = t.changed
  skipped : s.skipped = t.skipped

namespace Agree

variable {s t : Shapes} {x y : String}

section

variable (agree : Agree names s t) (named : names x)

include agree named

theorem info? : s.info? x = t.info? x :=
  agree.infos x named

theorem groupOf? : s.groupOf? x = t.groupOf? x := by
  rw [Shapes.groupOf?,Shapes.groupOf?,agree.info? named]

theorem shapeOf : s.shapeOf x = t.shapeOf x := by
  rw [Shapes.shapeOf,Shapes.shapeOf,agree.info? named]

theorem grow (shape : Shape) : Agree names (s.grow x shape) (t.grow x shape) := by
  unfold Shapes.grow
  rw [agree.info? named]
  split
  · dsimp only
    split
    · exact agree
    · exact ⟨agree.infos.set _ _,agree.nextGroup,rfl,agree.skipped⟩
  · exact ⟨agree.infos.set _ _,agree.nextGroup,rfl,agree.skipped⟩

theorem enter (group : Nat) : Agree names (s.enter x group) (t.enter x group) := by
  unfold Shapes.enter
  rw [agree.info? named]
  exact ⟨agree.infos.set _ _,agree.nextGroup,agree.changed,agree.skipped⟩

omit named in
theorem regroup (old new : Nat) : Agree names (s.regroup old new) (t.regroup old new) := by
  refine ⟨fun y named => ?_,agree.nextGroup,agree.changed,agree.skipped⟩
  have moved (u : Shapes) : get? (u.regroup old new).infos y = (u.infos.get? y).map
      fun info => if info.group = some old then { info with group := some new } else info := by
    refine get?_map u.infos _ _ ?_ y
    exact fun _ => rfl
  rw [moved,moved,agree.infos y named]

theorem ensureGroup : (s.ensureGroup x).1 = (t.ensureGroup x).1 ∧
      Agree names (s.ensureGroup x).2 (t.ensureGroup x).2 := by
  unfold Shapes.ensureGroup
  rw [agree.groupOf? named]
  split
  · exact ⟨rfl,agree⟩
  · have entered := agree.enter named t.nextGroup
    rw [← agree.nextGroup] at entered ⊢
    exact ⟨rfl,entered.infos,rfl,entered.changed,entered.skipped⟩

theorem merge (known : names y) : Agree names (s.merge x y) (t.merge x y) := by
  obtain ⟨group,ensured⟩ := agree.ensureGroup known
  unfold Shapes.merge
  dsimp only
  rw [group,ensured.groupOf? named]
  split
  · split
    · exact ensured
    · exact ensured.regroup _ _
  · exact ensured.enter named _

theorem overlap (known : names y) : s.overlap x y = t.overlap x y := by
  rw [Shapes.overlap,Shapes.overlap,agree.groupOf? named,agree.groupOf? known]

end

theorem mayAlias (agree : Agree names s t) {a b : Value} (first : a.Spelled names)
    (second : b.Spelled names) : s.mayAlias a b = t.mayAlias a b := by
  unfold Shapes.mayAlias
  refine any_congr_of_mem fun l left => any_congr_of_mem fun r right => ?_
  exact agree.overlap ((first.selects _).1 l left) ((second.selects _).1 r right)

theorem anyAlias (agree : Agree names s t) {es : List Value}
    (spelled : ∀ e ∈ es, e.Spelled names) : s.anyAlias es = t.anyAlias es := by
  induction es with
  | nil => rfl
  | cons e es ih =>
    obtain ⟨first,rest⟩ := forall_mem_cons.mp spelled
    rw [Shapes.anyAlias,Shapes.anyAlias,ih rest,
      any_congr_of_mem fun b member => agree.mayAlias first (rest b member)]

end Agree

end Shapes

namespace Shape

/-- From states that agree on the names the computation comes to the same result, and to states that
agree. -/
def Local (names : String → Prop) {α : Type} (x : ShapeM α) : Prop :=
  ∀ s t, Shapes.Agree names s t → (x.run s).1 = (x.run t).1 ∧ Shapes.Agree names (x.run s).2 (x.run t).2

theorem Local.follows {α : Type} {x : ShapeM α} (stays : Local names x) :
    Follows (fun _ => False) (Agree names) Eq x x :=
  ⟨fun _ => False.elim,fun s t agree => .inr (stays s t agree)⟩

theorem Follows.stays_local {α : Type} {x : ShapeM α}
    (follows : Follows (fun _ => False) (Agree names) Eq x x) : Local names x :=
  fun s t agree => (follows.keeps s t agree).resolve_left id

theorem local_rules (names : String → Prop) : Rules (Value.Spelled names) (Agree names) Eq := by
  refine .ofEq (Value.Spelled.hereditary names) (fun named agree => agree.shapeOf named)
    (fun spelled agree => agree.anyAlias spelled) fun found spelled agree => ?_
  obtain ⟨_,_,rfl,listed⟩ := formItems_cons found
  exact agree.grow (spelled.2.items listed _ mem_cons_self) .cyclic

section Inference

variable {infer : Value → ShapeM Shape}

theorem pass_local (spelled : form.Spelled names)
    (parts : ∀ e, e.Spelled names → Local names (infer e)) : Local names (pass infer form) := by
  refine (pass_follows (fun _ => rfl) (fun b bound => (parts _ (spelled.1 b bound).2).follows)
    (parts _ spelled.2).follows ?_ ?_).stays_local
  · rintro x member a _ s t rfl agree
    exact agree.grow (spelled.name x member) a
  · intro b bound source part exposes _ s t agree
    obtain ⟨named,init⟩ := spelled.1 b bound
    exact agree.merge named (init.exposed exposes)

def restore (outer : Shapes) (infos : Table ShapeInfo) (name : String) : Table ShapeInfo :=
  match outer.info? name with
  | some info => infos.set name info
  | none => infos.erase name

theorem nestedPass_run (infer : Value → ShapeM Shape) (form : LetForm) (s : Shapes) :
    (nestedPass infer form).run s =
      let inner := (pass infer form).run { s with infos := form.names.foldl erase s.infos }
      (inner.1,{ inner.2 with
        changed := s.changed
        infos := form.names.foldl (restore s) inner.2.infos }) := rfl

theorem nestedPass_local (spelled : form.Spelled names) (parts : ∀ e, e.Spelled names → Local names (infer e)) :
    Local names (nestedPass infer form) := by
  intro s t agree
  have hidden (xs : List String) {infos infos' : Table ShapeInfo} (same : infos.Agree names infos') :
      Agree names (xs.foldl erase infos) (xs.foldl erase infos') := by
    induction xs generalizing infos infos' with
    | nil => exact same
    | cons x xs ih => exact ih (same.erase x)
  have restored (xs : List String) (named : ∀ x ∈ xs, names x) {infos infos' : Table ShapeInfo}
      (same : infos.Agree names infos') :
      Agree names (xs.foldl (restore s) infos) (xs.foldl (restore t) infos') := by
    induction xs generalizing infos infos' with
    | nil => exact same
    | cons x xs ih =>
      obtain ⟨first,rest⟩ := forall_mem_cons.mp named
      refine ih rest ?_
      unfold restore
      rw [agree.info? first]
      split
      · exact same.set _ _
      · exact same.erase _
  have entry : Agree names { s with infos := form.names.foldl erase s.infos }
      { t with infos := form.names.foldl erase t.infos } :=
    ⟨hidden form.names agree.infos,agree.nextGroup,agree.changed,agree.skipped⟩
  obtain ⟨shape,inner⟩ := pass_local spelled parts _ _ entry
  rw [nestedPass_run,nestedPass_run]
  exact ⟨shape,restored form.names spelled.name inner.infos,inner.nextGroup,agree.changed,inner.skipped⟩

theorem binding_spelled {items : List Value} {inner : LetForm} (each : ∀ e ∈ items, e.Spelled names)
    (shown : View.ofItems items = .binding inner) : inner.Spelled names := by
  obtain ⟨kind,parts,rfl,read⟩ := View.ofItems_shows shown
  exact LetForm.ofParts_spelled read (forall_mem_cons.mp each).2

/-- A form is inferred locally if its parts are, and the parts of an inner form. -/
theorem form_local {deeper : Value → ShapeM Shape} {e : Value} (spelled : e.Spelled names)
    (infers : ∀ e, e.Spelled names → Local names (infer e))
    (inner : ∀ e, e.Spelled names → Local names (deeper e)) :
    Local names (ofValue (ofForm infer deeper) e) := by
  refine (ofValue_follows (local_rules names) spelled fun items found => ?_).stays_local
  refine ofForm_follows (local_rules names) found spelled (fun e part => (infers e part).follows) ?_
  intro form shown
  have each := spelled.items (formItems_head found).1
  exact (nestedPass_local (binding_spelled each shown) inner).follows

theorem infer_local (budget : Nat) {e : Value} (spelled : e.Spelled names) :
    Local names (Shape.infer budget e) := by
  have none (e : Value) : Local names (Shape.infer 0 e) := fun s t agree =>
    ⟨rfl,agree.infos,agree.nextGroup,agree.changed,congrArg (· + 1) agree.skipped⟩
  induction budget using infer.induct generalizing e with
  | case1 => exact none e
  | case2 => exact form_local spelled (fun e _ => none e) fun e _ => none e
  | case3 budget first second => exact form_local spelled (fun e => first) fun e => second

end Inference

end Shape

theorem ShapeResult.ofForm_agree (spelled : form.Spelled names) {s t : Shapes}
    (agree : Agree names s t) (depth : Nat) :
    Agree names (ofForm form s depth).shapes (ofForm form t depth).shapes := by
  have passes := pass_local spelled fun e => infer_local (depth - 1) (e := e)
  have rounds (rounds iterations : Nat) {s t : Shapes} (shape : Shape) (agree : Agree names s t) :
      Agree names (iterate (pass (infer (depth - 1)) form) rounds iterations s shape).shapes
        (iterate (pass (infer (depth - 1)) form) rounds iterations t shape).shapes := by
    induction rounds generalizing s t iterations shape with
    | zero => exact agree
    | succ rounds ih =>
      obtain ⟨same,after⟩ := passes { s with changed := false } { t with changed := false }
        ⟨agree.infos,agree.nextGroup,rfl,agree.skipped⟩
      rw [iterate_succ,iterate_succ,after.changed,same]
      split
      · exact ih _ _ after
      · exact after
  exact rounds _ _ _ agree

namespace Analysis

variable {form : LetForm} {known known' : Table Shape}

theorem knowing_agree (agree : known.Agree names known') : Agree names (.knowing known) (.knowing known') := by
  refine ⟨fun x named => ?_,rfl,rfl,rfl⟩
  have kept (known : Table Shape) : (knowing known).infos.get? x =
      (known.get? x).map fun shape => ⟨shape,none⟩ := info?_knowing known x
  rw [kept,kept,agree x named]

/-- Tables that agree on the names of a form give the same analysis of it, apart from what is found out
about other names. -/
theorem ofForm_agree (spelled : form.Spelled names) (agree : known.Agree names known')
    (options : Options) : ∃ shapes, ofForm form known' options = { ofForm form known options with shapes } ∧
        ∀ x, names x → shapes.shapes.shapeOf x = (ofForm form known options).shapeOf x := by
  have shapes := ShapeResult.ofForm_agree spelled (knowing_agree agree) options.analysisDepth
  refine ⟨ShapeResult.ofForm form (.knowing known') options.analysisDepth,?_,fun x named => ?_⟩
  · unfold ofForm
    dsimp only
    split <;> rfl
  · rw [shapeOf,ofForm_shapes]
    exact (shapes.shapeOf named).symm

theorem bindingShapes_agree (spelled : form.Spelled names) (agree : known.Agree names known') (options : Options) :
    (ofForm form known' options).bindingShapes = (ofForm form known options).bindingShapes := by
  obtain ⟨shapes,equal,same⟩ := ofForm_agree spelled agree options
  rw [equal]
  unfold bindingShapes
  refine map_congr_left fun x member => ?_
  exact congrArg (Prod.mk x) (same x (spelled.name x (ofForm_names ▸ member)))

end Analysis

theorem Plans.ofForm_shapes {a : Analysis} {shapes : ShapeResult}
    (same : ∀ b ∈ form.bindings, shapes.shapes.shapeOf b.name = a.shapeOf b.name)
    (values : List Value) (options : Options) :
    ofForm form values { a with shapes } options = ofForm form values a options := by
  have each (b : Binding) (bound : b ∈ form.bindings) (v : Value) :
      ofBinding { a with shapes } options b v = ofBinding a options b v := by
    have shape : shapeOf { a with shapes } b.name = a.shapeOf b.name := same b bound
    unfold ofBinding
    rw [shape]
    rfl
  have plans : (form.bindings.zip values).map (fun entry => ofBinding { a with shapes } options entry.1 entry.2) =
        (form.bindings.zip values).map fun entry =>
          ofBinding a options entry.1 entry.2 :=
    map_congr_left fun entry member => each entry.1 (of_mem_zip member).1 entry.2
  unfold ofForm
  rw [plans]
  rfl

theorem Plans.ofForm_agree {known known' : Table Shape} (spelled : form.Spelled names)
    (agree : known.Agree names known') (values : List Value) (options : Options) :
    ofForm form values (Analysis.ofForm form known' options) options =
      ofForm form values (Analysis.ofForm form known options) options := by
  obtain ⟨shapes,equal,same⟩ := Analysis.ofForm_agree spelled agree options
  rw [equal]
  exact ofForm_shapes (fun b bound => same b.name (spelled.1 b bound).1) values options

end StagedLisp
