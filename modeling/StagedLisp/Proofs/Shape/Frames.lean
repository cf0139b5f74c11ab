import StagedLisp.Proofs.Shape.Locality

/-! What inference leaves alone. It changes the shape of a name only by an assignment, and the names of an
inner form mean something else outside it, so that no two names come to overlap while an expression is
analysed. -/
namespace StagedLisp

open List Table

theorem Shape.join_cyclic (a : Shape) : a.join .cyclic = .cyclic := by
  cases a <;> rfl

namespace Shapes

/-- What becomes of a state while a form with the names `inner` is analysed, some of which have been
visited. The shapes of other names stay, apart from touched ones, which may become cyclic. Groups are kept,
and new ones hold a single name that was not visited. -/
structure Frame (touched : String → Prop) (inner visited : List String) (s t : Shapes) : Prop where
  bounded : t.Bounded
  next : s.nextGroup ≤ t.nextGroup
  flag : s.changed = true → t.changed = true
  shapes : ∀ x ∉ inner, t.shapeOf x = s.shapeOf x ∨ touched x ∧ t.shapeOf x = .cyclic
  kept : ∀ x ∉ visited, ∀ g, (s.infoOf x).group = some g → (t.infoOf x).group = some g
  fresh : ∀ x ∉ visited, (s.infoOf x).group = none → ∀ g, (t.infoOf x).group = some g →
    s.nextGroup ≤ g ∧ ∀ y ∉ visited, (t.infoOf y).group = some g → y = x

variable {touched : String → Prop} {inner visited : List String} {s t u : Shapes} {x y : String}

namespace Frame

theorem refl (bounded : s.Bounded) : Frame touched inner visited s s where
  bounded := bounded
  next := le_rfl
  flag := id
  shapes _ _ := .inl rfl
  kept _ _ _ := id
  fresh x _ alone g found := by
    rw [alone] at found
    cases found

theorem trans (first : Frame touched inner visited s t) (second : Frame touched [] [] t u) :
    Frame touched inner visited s u where
  bounded := second.bounded
  next := first.next.trans second.next
  flag changed := second.flag (first.flag changed)
  shapes x outside := by
    rcases second.shapes x not_mem_nil with same | grown
    · rw [same]
      exact first.shapes x outside
    · exact .inr grown
  kept x unvisited g found := second.kept x not_mem_nil g (first.kept x unvisited g found)
  fresh x unvisited alone g found := by
    cases before : (t.infoOf x).group with
    | none =>
      obtain ⟨new,unique⟩ := second.fresh x not_mem_nil before g found
      exact ⟨first.next.trans new,fun y _ => unique y not_mem_nil⟩
    | some h =>
      cases (second.kept x not_mem_nil h before).symm.trans found
      obtain ⟨new,unique⟩ := first.fresh x unvisited alone g before
      refine ⟨new,fun y other same => unique y other ?_⟩
      cases there : (t.infoOf y).group with
      | none =>
        have later := (second.fresh y not_mem_nil there g same).1
        exact absurd (first.bounded x g before) (not_lt.mpr later)
      | some h => rw [← second.kept y not_mem_nil h there,same]

theorem mono (frame : Frame touched inner visited s t) {more : List String} (fewer : visited ⊆ more) :
    Frame touched inner more s t where
  bounded := frame.bounded
  next := frame.next
  flag := frame.flag
  shapes := frame.shapes
  kept x outside := frame.kept x fun member => outside (fewer member)
  fresh x outside alone g found := by
    obtain ⟨new,unique⟩ := frame.fresh x (fun member => outside (fewer member)) alone g found
    exact ⟨new,fun y other => unique y fun member => other (fewer member)⟩

theorem overlap (frame : Frame touched inner [] s t) (a b : String) : t.overlap a b = s.overlap a b := by
  rw [Bool.eq_iff_iff,overlap_iff,overlap_iff]
  constructor
  · rintro (same | ⟨g,left,right⟩)
    · exact .inl same
    · cases first : (s.infoOf a).group with
      | none => exact .inl ((frame.fresh a not_mem_nil first g left).2 b not_mem_nil right).symm
      | some h =>
        cases second : (s.infoOf b).group with
        | none => exact .inl ((frame.fresh b not_mem_nil second g right).2 a not_mem_nil left)
        | some k =>
          cases (frame.kept a not_mem_nil h first).symm.trans left
          cases (frame.kept b not_mem_nil k second).symm.trans right
          exact .inr ⟨g,rfl,rfl⟩
  · rintro (same | ⟨g,left,right⟩)
    · exact .inl same
    · exact .inr ⟨g,frame.kept a not_mem_nil g left,frame.kept b not_mem_nil g right⟩

end Frame

theorem grow_changed (s : Shapes) (x : String) (shape : Shape) :
    s.grow x shape = s ∨ (s.grow x shape).changed = true := by
  unfold grow
  dsimp only
  split
  · split
    · exact .inl rfl
    · exact .inr rfl
  · exact .inr rfl

theorem Frame.grow (frame : Frame touched inner visited s t) {shape : Shape}
    (allowed : x ∈ inner ∨ touched x ∧ shape = .cyclic) :
    Frame touched inner visited s (t.grow x shape) where
  bounded y g found := by
    rw [grow_group] at found
    exact (grow_skipped t x shape).2 ▸ frame.bounded y g found
  next := (grow_skipped t x shape).2 ▸ frame.next
  flag changed := by
    rcases grow_changed t x shape with same | raised
    · rw [same]
      exact frame.flag changed
    · exact raised
  shapes y outside := by
    rw [grow_shape]
    split
    · next here =>
      subst here
      obtain ⟨touch,rfl⟩ := allowed.resolve_left outside
      exact .inr ⟨touch,Shape.join_cyclic _⟩
    · exact frame.shapes y outside
  kept y unvisited g found := (grow_group t x shape y).trans (frame.kept y unvisited g found)
  fresh y unvisited alone g found := by
    simp only [grow_group] at found ⊢
    exact frame.fresh y unvisited alone g found

theorem Frame.growAll {names : List String} (frame : Frame touched inner visited s t)
    (allowed : ∀ x ∈ names, x ∈ inner ∨ touched x) :
    Frame touched inner visited s (names.foldl (fun s x => s.grow x .cyclic) t) := by
  induction names generalizing t with
  | nil => exact frame
  | cons x names ih =>
    obtain ⟨first,rest⟩ := forall_mem_cons.mp allowed
    exact ih (frame.grow (first.imp_right fun touch => ⟨touch,rfl⟩)) rest

theorem info?_regroup (s : Shapes) (old new : Nat) (y : String) :
    (s.regroup old new).info? y = (s.info? y).map fun info =>
      if info.group = some old then { info with group := some new } else info := by
  refine get?_map s.infos _ _ ?_ y
  exact fun _ => rfl

theorem infoOf_regroup (s : Shapes) (old new : Nat) (y : String) : (s.regroup old new).infoOf y =
    if (s.infoOf y).group = some old then { s.infoOf y with group := some new } else s.infoOf y := by
  rw [infoOf,info?_regroup,infoOf]
  cases s.info? y <;> rfl

theorem ensureGroup_frame (bounded : s.Bounded) (x : String) : Frame touched inner visited s (s.ensureGroup x).2 ∧
      ((s.ensureGroup x).2.infoOf x).group = some (s.ensureGroup x).1 := by
  unfold ensureGroup
  rw [groupOf?_eq]
  cases found : (s.infoOf x).group with
  | some g => exact ⟨.refl bounded,found⟩
  | none =>
    have entered (y : String) : { s.enter x s.nextGroup with nextGroup := s.nextGroup + 1 }.infoOf y =
          if y = x then { s.infoOf x with group := some s.nextGroup } else s.infoOf y :=
      infoOf_enter s x y s.nextGroup
    have unused (y : String) : (s.infoOf y).group ≠ some s.nextGroup := fun found => lt_irrefl _ (bounded y _ found)
    refine ⟨⟨?_,Nat.le_succ _,id,?_,?_,?_⟩,?_⟩
    · intro y g group
      dsimp only at group ⊢
      rw [entered] at group
      split at group
      · cases group
        exact Nat.lt_succ_self _
      · exact Nat.lt_succ_of_lt (bounded y g group)
    · intro y _
      dsimp only
      rw [shapeOf_eq,shapeOf_eq,entered]
      split
      · next here => exact .inl (here ▸ rfl)
      · exact .inl rfl
    · intro y _ g group
      dsimp only
      rw [entered]
      split
      · next here =>
        rw [here,found] at group
        cases group
      · exact group
    · intro y _ alone g group
      dsimp only at group ⊢
      rw [entered] at group
      split at group
      · next here =>
        cases group
        refine ⟨le_rfl,fun z _ same => ?_⟩
        rw [entered] at same
        split at same
        · next there => rw [here,there]
        · exact absurd same (unused z)
      · rw [alone] at group
        cases group
    · dsimp only
      rw [entered,if_pos rfl]

theorem infoOf_merge (s : Shapes) (x source y : String) :
    (s.merge x source).infoOf y = if (s.ensureGroup source).2.overlap y x
      then { (s.ensureGroup source).2.infoOf y with group := some (s.ensureGroup source).1 }
      else (s.ensureGroup source).2.infoOf y := by
  unfold merge
  generalize s.ensureGroup source = ensured
  obtain ⟨g,t⟩ := ensured
  have overlaps (old : Nat) (found : (t.infoOf x).group = some old) :
      t.overlap y x = true ↔ (t.infoOf y).group = some old := by
    rw [overlap_iff]
    constructor
    · rintro (rfl | ⟨h,left,right⟩)
      · exact found
      · rw [left,← right,found]
    · exact fun same => .inr ⟨old,same,found⟩
  dsimp only
  rw [groupOf?_eq]
  cases found : (t.infoOf x).group with
  | some old =>
    simp only [overlaps old found]
    split
    · next same =>
      subst same
      split
      · next group => rw [← group]
      · rfl
    · exact infoOf_regroup t old g y
  | none =>
    have single : t.overlap y x = true ↔ y = x := by simp [overlap_iff,found]
    simp only [single,infoOf_enter]
    split
    · next here => rw [here]
    · rfl

theorem merge_rest (s : Shapes) (x source : String) :
    (s.merge x source).nextGroup = (s.ensureGroup source).2.nextGroup ∧
      (s.merge x source).changed = (s.ensureGroup source).2.changed := by
  unfold merge
  dsimp only
  split
  · split <;> exact ⟨rfl,rfl⟩
  · exact ⟨rfl,rfl⟩

theorem ensureGroup_rest (s : Shapes) (x : String) :
    (∀ y, (s.ensureGroup x).2.shapeOf y = s.shapeOf y) ∧ (s.ensureGroup x).2.changed = s.changed := by
  unfold ensureGroup
  split
  · exact ⟨fun _ => rfl,rfl⟩
  · refine ⟨fun y => ?_,rfl⟩
    have entered : ((s.enter x s.nextGroup).infoOf y).shape = (s.infoOf y).shape := by
      rw [infoOf_enter]
      split
      · next here => rw [here]
      · rfl
    rw [shapeOf_eq,shapeOf_eq]
    exact entered

theorem merge_shape (s : Shapes) (x source y : String) : (s.merge x source).shapeOf y = s.shapeOf y := by
  rw [← (ensureGroup_rest s source).1 y,shapeOf_eq,shapeOf_eq,infoOf_merge]
  split <;> rfl

theorem merge_changed (s : Shapes) (x source : String) : (s.merge x source).changed = s.changed :=
  (merge_rest s x source).2.trans (ensureGroup_rest s source).2

theorem overlap_symm {a b : String} (overlap : s.overlap a b = true) : s.overlap b a = true := by
  rw [overlap_iff] at overlap ⊢
  exact overlap.imp Eq.symm fun ⟨g,left,right⟩ => ⟨g,right,left⟩

theorem overlap_trans {a b c : String} (first : s.overlap a b = true) (second : s.overlap b c = true) :
    s.overlap a c = true := by
  rcases overlap_iff.mp first with rfl | ⟨g,left,middle⟩
  · exact second
  · rcases overlap_iff.mp second with rfl | ⟨h,again,right⟩
    · exact first
    · cases middle.symm.trans again
      exact overlap_iff.mpr (.inr ⟨g,left,right⟩)

section Merge

variable {source : String}

theorem merge_bounded (bounded : s.Bounded) : (s.merge x source).Bounded := by
  obtain ⟨frame,group⟩ : Frame (fun _ => False) [] [] s (s.ensureGroup source).2 ∧ _ :=
    ensureGroup_frame bounded source
  intro y g found
  rw [(merge_rest s x source).1]
  rw [infoOf_merge] at found
  split at found
  · cases found
    exact frame.bounded source _ group
  · exact frame.bounded y g found

theorem overlap_merge (bounded : s.Bounded) (a b : String) : (s.merge x source).overlap a b = true ↔
    s.overlap a b = true ∨ (s.overlap a x = true ∨ s.overlap a source = true) ∧
      (s.overlap b x = true ∨ s.overlap b source = true) := by
  obtain ⟨frame,group⟩ : Frame (fun _ => False) [] [] s (s.ensureGroup source).2 ∧ _ :=
    ensureGroup_frame bounded source
  have infos := infoOf_merge s x source
  simp only [← frame.overlap]
  generalize (s.ensureGroup source).2 = u at *
  generalize (s.ensureGroup source).1 = h at *
  have joined (y : String) : ((s.merge x source).infoOf y).group = some h ↔
      u.overlap y x = true ∨ u.overlap y source = true := by
    have whole : u.overlap y source = true ↔ (u.infoOf y).group = some h := by
      rw [overlap_iff]
      refine ⟨?_,fun found => .inr ⟨h,found,group⟩⟩
      rintro (rfl | ⟨g,left,right⟩)
      · exact group
      · rw [left,← right,group]
    rw [infos,whole]
    by_cases near : u.overlap y x = true <;> simp [near]
  have apart {y : String} (far : ¬ u.overlap y x = true) :
      ((s.merge x source).infoOf y).group = (u.infoOf y).group := by
    rw [infos,if_neg far]
  constructor
  · intro overlap
    rcases overlap_iff.mp overlap with rfl | ⟨g,left,right⟩
    · exact .inl (overlap_iff.mpr (.inl rfl))
    · by_cases same : g = h
      · subst same
        exact .inr ⟨(joined a).mp left,(joined b).mp right⟩
      · have far (y : String) (found : ((s.merge x source).infoOf y).group = some g) : ¬ u.overlap y x = true := by
          intro near
          cases found.symm.trans ((joined y).mpr (.inl near))
          exact same rfl
        rw [apart (far a left)] at left
        rw [apart (far b right)] at right
        exact .inl (overlap_iff.mpr (.inr ⟨g,left,right⟩))
  · rintro (overlap | ⟨left,right⟩)
    · by_cases near : u.overlap a x = true
      · have other := overlap_trans (overlap_symm overlap) near
        exact overlap_iff.mpr (.inr ⟨h,(joined a).mpr (.inl near),(joined b).mpr (.inl other)⟩)
      · have far : ¬ u.overlap b x = true := fun other => near (overlap_trans overlap other)
        rw [overlap_iff,apart near,apart far]
        exact overlap_iff.mp overlap
    · exact overlap_iff.mpr (.inr ⟨h,(joined a).mpr left,(joined b).mpr right⟩)

/-- A name that had no group at first may be merged while its form is analysed. -/
theorem Frame.merge (frame : Frame touched inner visited s t) (unvisited : x ∉ visited)
    (alone : (s.infoOf x).group = none) : Frame touched inner (x :: visited) s (t.merge x source) := by
  obtain ⟨ensured,_⟩ : Frame touched [] [] t (t.ensureGroup source).2 ∧ _ := ensureGroup_frame frame.bounded source
  have first := frame.trans ensured
  have infos := infoOf_merge t x source
  obtain ⟨next,changed⟩ := merge_rest t x source
  generalize (t.ensureGroup source).2 = u at *
  generalize (t.ensureGroup source).1 = h at *
  -- The names that move are `x` and visited ones.
  have same (y : String) (outside : y ∉ x :: visited) : (t.merge x source).infoOf y = u.infoOf y := by
    rw [mem_cons,not_or] at outside
    rw [infos,if_neg]
    intro overlap
    rcases overlap_iff.mp overlap with here | ⟨g,left,right⟩
    · exact outside.1 here
    · exact outside.1 ((first.fresh x unvisited alone g right).2 y outside.2 left)
  have fewer : visited ⊆ x :: visited := subset_cons_self x visited
  refine ⟨merge_bounded frame.bounded,next ▸ first.next,fun flag => changed ▸ first.flag flag,?_,?_,?_⟩
  · intro y outside
    rw [merge_shape]
    exact frame.shapes y outside
  · intro y outside g found
    rw [same y outside]
    exact (first.mono fewer).kept y outside g found
  · intro y outside none g found
    rw [same y outside] at found
    obtain ⟨new,unique⟩ := (first.mono fewer).fresh y outside none g found
    refine ⟨new,fun z other there => unique z other ?_⟩
    rwa [same z other] at there

end Merge

end Shapes

namespace Shape

open Shapes

variable {touched : String → Prop} {inner visited : List String} {s t : Shapes} {infer : Value → ShapeM Shape}

/-- The computation leaves alone what a frame says, but for the touched names. -/
def Frames (touched : String → Prop) {α : Type} (x : ShapeM α) : Prop :=
  ∀ s, s.Bounded → Frame touched [] [] s (x.run s).2

theorem pass_runs (infer : Value → ShapeM Shape) (form : LetForm) (s : Shapes) :
    (pass infer form).run s = (infer form.body).run (form.bindings.foldl (fun s b => visit infer b s)
      (if form.kind = .recursive then form.names.foldl (fun s x => s.grow x .cyclic) s else s)) := by
  have whole : (pass infer form).run s = (infer form.body).run ((form.bindings.forM (visitM infer)).run
      (if form.kind = .recursive then form.names.foldl (fun s x => s.grow x .cyclic) s else s)).2 := by
    unfold pass
    split <;> rfl
  rw [whole,visitsM_run]

theorem visit_frame {b : Binding} (frames : Frames touched (infer b.init))
    (frame : Frame touched inner visited s t) (among : b.name ∈ inner) (unvisited : b.name ∉ visited)
    (alone : (s.infoOf b.name).group = none) :
    Frame touched inner (b.name :: visited) s (visit infer b t) := by
  have grown : Frame touched inner visited s (((infer b.init).run t).2.grow b.name ((infer b.init).run t).1) :=
    (frame.trans (frames t frame.bounded)).grow (.inl among)
  have fewer := grown.mono (subset_cons_self b.name visited)
  unfold visit record
  split
  · split
    · exact fewer
    · exact grown.merge unvisited alone
  · exact fewer

theorem visits_frame {bindings : List Binding} (frames : ∀ b ∈ bindings, Frames touched (infer b.init))
    (frame : Frame touched inner visited s t) (distinct : (bindings.map Binding.name).Nodup)
    (among : ∀ b ∈ bindings, b.name ∈ inner) (unvisited : ∀ b ∈ bindings, b.name ∉ visited)
    (alone : ∀ b ∈ bindings, (s.infoOf b.name).group = none) (known : visited ⊆ inner) :
    Frame touched inner inner s (bindings.foldl (fun s b => visit infer b s) t) := by
  induction bindings generalizing visited t with
  | nil => exact frame.mono known
  | cons b bindings ih =>
    obtain ⟨first,frames⟩ := forall_mem_cons.mp frames
    obtain ⟨here,among⟩ := forall_mem_cons.mp among
    obtain ⟨new,unvisited⟩ := forall_mem_cons.mp unvisited
    obtain ⟨single,alone⟩ := forall_mem_cons.mp alone
    obtain ⟨other,distinct⟩ := nodup_cons.mp distinct
    refine ih frames (visit_frame first frame here new single) distinct among ?_ alone
      (cons_subset.mpr ⟨here,known⟩)
    intro c member
    rw [mem_cons,not_or]
    refine ⟨fun same => other ?_,unvisited c member⟩
    exact same ▸ mem_map_of_mem member

theorem get?_eraseAll (names : List String) (infos : Table ShapeInfo) (y : String) :
    get? (names.foldl erase infos) y = if y ∈ names then none else infos.get? y := by
  induction names generalizing infos with
  | nil => rfl
  | cons x names ih =>
    rw [foldl_cons,ih,get?_erase]
    by_cases here : y = x <;> by_cases later : y ∈ names <;> simp [here,later]

theorem get?_restoreAll (outer : Shapes) (names : List String) (infos : Table ShapeInfo) (y : String) :
    get? (names.foldl (restore outer) infos) y = if y ∈ names then outer.info? y else infos.get? y := by
  have one (x : String) (infos : Table ShapeInfo) :
      get? (restore outer infos x) y = if y = x then outer.info? y else infos.get? y := by
    unfold restore
    cases found : outer.info? x with
    | some info =>
      dsimp only
      rw [get?_set]
      split
      · next here => rw [here,found]
      · rfl
    | none =>
      dsimp only
      rw [get?_erase]
      split
      · next here => rw [here,found]
      · rfl
  induction names generalizing infos with
  | nil => rfl
  | cons x names ih =>
    rw [foldl_cons,ih,one]
    by_cases here : y = x <;> by_cases later : y ∈ names <;> simp [here,later]

/-- The state in which an inner form is analysed. -/
def enterForm (form : LetForm) (s : Shapes) : Shapes :=
  { s with infos := form.names.foldl erase s.infos }

theorem info?_enterForm (form : LetForm) (s : Shapes) (y : String) :
    (enterForm form s).info? y = if y ∈ form.names then none else s.info? y :=
  get?_eraseAll form.names s.infos y

theorem infoOf_enterForm (form : LetForm) (s : Shapes) (y : String) :
    (enterForm form s).infoOf y = if y ∈ form.names then {} else s.infoOf y := by
  rw [infoOf,info?_enterForm]
  split <;> rfl

theorem enterForm_bounded (form : LetForm) (bounded : s.Bounded) : (enterForm form s).Bounded := by
  intro y g found
  rw [infoOf_enterForm] at found
  split at found
  · cases found
  · exact bounded y g found

theorem info?_nestedPass (infer : Value → ShapeM Shape) (form : LetForm) (s : Shapes) (y : String) :
    ((nestedPass infer form).run s).2.info? y = if y ∈ form.names then s.info? y
      else ((pass infer form).run (enterForm form s)).2.info? y := by
  rw [nestedPass_run]
  exact get?_restoreAll s form.names _ y

theorem infoOf_nestedPass (infer : Value → ShapeM Shape) (form : LetForm) (s : Shapes) (y : String) :
    ((nestedPass infer form).run s).2.infoOf y = if y ∈ form.names then s.infoOf y
      else ((pass infer form).run (enterForm form s)).2.infoOf y := by
  rw [infoOf,info?_nestedPass]
  split <;> rfl

/-- An inner form leaves alone what its parts leave alone: its names mean something else outside. -/
theorem nestedPass_frames {form : LetForm} (distinct : form.names.Nodup)
    (inits : ∀ b ∈ form.bindings, Frames touched (infer b.init))
    (body : Frames touched (infer form.body)) : Frames touched (nestedPass infer form) := by
  intro s bounded
  have entered := infoOf_enterForm form s
  have start := enterForm_bounded form bounded
  have raised : Frame touched form.names [] (enterForm form s) (if form.kind = .recursive then
      form.names.foldl (fun s x => s.grow x .cyclic) (enterForm form s) else enterForm form s) := by
    split
    · exact (Frame.refl start).growAll fun x => .inl
    · exact .refl start
  have passed : Frame touched form.names form.names (enterForm form s)
      ((pass infer form).run (enterForm form s)).2 := by
    have named (b : Binding) (bound : b ∈ form.bindings) : b.name ∈ form.names := mem_map_of_mem bound
    have visited := visits_frame inits raised distinct named (fun b _ => not_mem_nil)
      (fun b bound => by rw [entered,if_pos (named b bound)]) (nil_subset _)
    rw [pass_runs]
    exact visited.trans (body _ visited.bounded)
  have infos := infoOf_nestedPass infer form s
  have next : ((nestedPass infer form).run s).2.nextGroup =
      ((pass infer form).run (enterForm form s)).2.nextGroup := rfl
  have flag : ((nestedPass infer form).run s).2.changed = s.changed := rfl
  generalize ((pass infer form).run (enterForm form s)).2 = t at passed infos next
  generalize ((nestedPass infer form).run s).2 = u at infos next flag
  have later : s.nextGroup ≤ t.nextGroup := passed.next
  have inside {y : String} (here : y ∈ form.names) : u.infoOf y = s.infoOf y := by rw [infos,if_pos here]
  have outside {y : String} (other : y ∉ form.names) :
      (enterForm form s).infoOf y = s.infoOf y ∧ u.infoOf y = t.infoOf y :=
    ⟨by rw [entered,if_neg other],by rw [infos,if_neg other]⟩
  refine ⟨?_,next ▸ later,fun changed => flag ▸ changed,?_,?_,?_⟩
  · intro y g found
    rw [next]
    by_cases here : y ∈ form.names
    · rw [inside here] at found
      exact (bounded y g found).trans_le later
    · rw [(outside here).2] at found
      exact passed.bounded y g found
  · intro y _
    by_cases here : y ∈ form.names
    · rw [shapeOf_eq,shapeOf_eq,inside here]
      exact .inl rfl
    · have kept := passed.shapes y here
      simp only [shapeOf_eq,outside here] at kept ⊢
      exact kept
  · intro y _ g found
    by_cases here : y ∈ form.names
    · rw [inside here]
      exact found
    · rw [(outside here).2]
      exact passed.kept y here g (by rwa [(outside here).1])
  · intro y _ alone g found
    by_cases here : y ∈ form.names
    · rw [inside here,alone] at found
      cases found
    · rw [(outside here).2] at found
      obtain ⟨new,unique⟩ := passed.fresh y here (by rwa [(outside here).1]) g found
      refine ⟨new,fun z _ same => ?_⟩
      by_cases there : z ∈ form.names
      · rw [inside there] at same
        exact absurd (bounded z g same) (not_lt.mpr new)
      · rw [(outside there).2] at same
        exact unique z there same

end Shape

end StagedLisp
