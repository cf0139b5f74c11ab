import StagedLisp.Shape.Inference
import StagedLisp.Proofs.Form.Let
import StagedLisp.Proofs.Table

/-! What the steps of shape inference do to shapes and alias groups. -/
namespace StagedLisp

open LetForm

theorem Shape.unknown_join (a : Shape) : Shape.unknown.join a = a := by
  cases a <;> rfl

namespace Shapes

def infoOf (s : Shapes) (x : String) : ShapeInfo := (s.info? x).getD {}

theorem shapeOf_eq (s : Shapes) (x : String) : s.shapeOf x = (s.infoOf x).shape := by
  unfold shapeOf infoOf
  cases s.info? x <;> rfl

theorem groupOf?_eq (s : Shapes) (x : String) : s.groupOf? x = (s.infoOf x).group := by
  unfold groupOf? infoOf
  cases s.info? x <;> rfl

variable {s t : Shapes} {x source : String} {form : LetForm}

theorem infoOf_set {info : ShapeInfo} (set : t.infos = s.infos.set x info) (y : String) :
    t.infoOf y = if y = x then info else s.infoOf y := by
  rw [infoOf,info?,set,Table.get?_set]
  split
  · rfl
  · rfl

theorem infoOf_grow (s : Shapes) (x y : String) (shape : Shape) : (s.grow x shape).infoOf y =
      if y = x then { s.infoOf x with shape := (s.infoOf x).shape.join shape } else s.infoOf y := by
  unfold grow
  split
  · next info found =>
    have here : s.infoOf x = info := by rw [infoOf,found]; rfl
    rw [here]
    dsimp only
    split
    · next same =>
      rw [same]
      split
      · next named => rw [named,here]
      · rfl
    · exact infoOf_set rfl y
  · next absent =>
    have here : s.infoOf x = {} := by rw [infoOf,absent]; rfl
    rw [here,Shape.unknown_join]
    exact infoOf_set rfl y

theorem infoOf_enter (s : Shapes) (x y : String) (group : Nat) : (s.enter x group).infoOf y =
      if y = x then { s.infoOf x with group := some group } else s.infoOf y :=
  infoOf_set rfl y

theorem grow_skipped (s : Shapes) (x : String) (shape : Shape) :
    (s.grow x shape).skipped = s.skipped ∧ (s.grow x shape).nextGroup = s.nextGroup := by
  unfold grow
  dsimp only
  split
  · split <;> exact ⟨rfl,rfl⟩
  · exact ⟨rfl,rfl⟩

theorem merge_skipped (s : Shapes) (x source : String) : (s.merge x source).skipped = s.skipped := by
  unfold merge ensureGroup
  cases s.groupOf? source with
  | some g | none =>
    dsimp only
    split
    · split <;> rfl
    · rfl

theorem overlap_iff {a b : String} : s.overlap a b = true ↔
    a = b ∨ ∃ g, (s.infoOf a).group = some g ∧ (s.infoOf b).group = some g := by
  rw [overlap,Bool.or_eq_true,beq_iff_eq,Bool.and_eq_true,beq_iff_eq,groupOf?_eq,groupOf?_eq]
  cases (s.infoOf a).group with
  | none => simp
  | some g => simp [eq_comm]

def Bounded (s : Shapes) : Prop := ∀ x g, (s.infoOf x).group = some g → g < s.nextGroup

theorem merge_overlap (different : x ≠ source) (overlap : s.overlap x source) : s.merge x source = s := by
  rcases overlap_iff.mp overlap with same | ⟨g,here,there⟩
  · exact absurd same different
  · rw [merge,ensureGroup,groupOf?_eq,there]
    simp [groupOf?_eq,here]

/-- A name without a group gets that of the source, and the source a new one if it has none. -/
theorem merge_alone (different : x ≠ source) (alone : (s.infoOf x).group = none) :
    ∃ g, ((s.infoOf source).group = some g ∧ (s.merge x source).nextGroup = s.nextGroup ∨
        (s.infoOf source).group = none ∧ g = s.nextGroup ∧ (s.merge x source).nextGroup = s.nextGroup + 1) ∧
      ∀ y, (s.merge x source).infoOf y =
        if y = x ∨ y = source then { s.infoOf y with group := some g } else s.infoOf y := by
  have entered {t : Shapes} {g : Nat} (named : (t.infoOf source).group = some g)
      (kept : ∀ y, y ≠ source → t.infoOf y = s.infoOf y)
      (shape : (t.infoOf source).shape = (s.infoOf source).shape) (y : String) :
      (t.enter x g).infoOf y = if y = x ∨ y = source then { s.infoOf y with group := some g } else s.infoOf y := by
    rw [infoOf_enter]
    by_cases first : y = x
    · subst first
      simp [kept y different]
    · by_cases second : y = source
      · subst second
        simp only [if_neg first,or_true,if_true]
        rw [← named,← shape]
      · simp [first,second,kept y second]
  rw [merge,ensureGroup,groupOf?_eq]
  cases found : (s.infoOf source).group with
  | some g =>
    simp only [groupOf?_eq,alone]
    exact ⟨g,.inl ⟨rfl,rfl⟩,entered found (fun _ _ => rfl) rfl⟩
  | none =>
    have first (y : String) : { s.enter source s.nextGroup with nextGroup := s.nextGroup + 1 }.infoOf y =
          if y = source then { s.infoOf source with group := some s.nextGroup }
          else s.infoOf y := infoOf_enter s source y s.nextGroup
    simp only [groupOf?_eq,first,if_neg different,alone]
    refine ⟨s.nextGroup,.inr ⟨trivial,rfl,rfl⟩,entered ?_ ?_ ?_⟩
    · rw [first,if_pos rfl]
    · intro y other
      rw [first,if_neg other]
    · rw [first,if_pos rfl]

theorem overlap_congr (same : ∀ y, (t.infoOf y).group = (s.infoOf y).group) (a b : String) :
    t.overlap a b = s.overlap a b := by
  simp only [overlap,groupOf?_eq,same]

section Merge

variable {s : Shapes} {x source : String} (different : x ≠ source)
  (alone : (s.infoOf x).group = none) (bounded : s.Bounded)

include different alone

theorem merge_alone_shape (y : String) : (s.merge x source).shapeOf y = s.shapeOf y := by
  obtain ⟨g,_,infos⟩ := merge_alone different alone
  rw [shapeOf_eq,shapeOf_eq,infos]
  split <;> rfl

theorem merge_alone_overlap : (s.merge x source).overlap x source := by
  obtain ⟨g,_,infos⟩ := merge_alone different alone
  exact overlap_iff.mpr (.inr ⟨g,by simp [infos],by simp [infos]⟩)

include bounded

theorem merge_alone_bounded : (s.merge x source).Bounded := by
  obtain ⟨g,new,infos⟩ := merge_alone different alone
  intro y h found
  rw [infos] at found
  rcases new with ⟨old,next⟩ | ⟨_,rfl,next⟩
  · have below := bounded _ _ old
    rw [next]
    split at found
    · cases found; exact below
    · exact bounded _ _ found
  · rw [next]
    split at found
    · cases found; exact Nat.lt_succ_self _
    · exact Nat.lt_succ_of_lt (bounded _ _ found)

theorem merge_alone_keeps {a b : String} (first : a ≠ x) (second : b ≠ x) :
    (s.merge x source).overlap a b = s.overlap a b := by
  obtain ⟨g,new,infos⟩ := merge_alone different alone
  have group (y : String) (other : y ≠ x) : ((s.merge x source).infoOf y).group =
      if y = source then some g else (s.infoOf y).group := by
    rw [infos]
    by_cases here : y = source <;> simp [here,other]
  rw [Bool.eq_iff_iff,overlap_iff,overlap_iff,group a first,group b second]
  rcases new with ⟨old,_⟩ | ⟨absent,rfl,_⟩
  · by_cases atA : a = source <;> by_cases atB : b = source <;> simp [atA,atB,old]
  · -- No name is in the new group but the source.
    have unused (y : String) : (s.infoOf y).group ≠ some s.nextGroup :=
      fun found => Nat.lt_irrefl _ (bounded _ _ found)
    by_cases atA : a = source <;> by_cases atB : b = source <;> simp [atA,atB,absent,unused]

end Merge

/-- The first `n` bindings of a form have been merged with the names they expose, and no other name
is in a group. -/
structure Grouped (form : LetForm) (n : Nat) (s : Shapes) : Prop where
  bounded : s.Bounded
  later : ∀ x, x ∉ form.names.take n → (s.infoOf x).group = none
  exposes : ∀ (j : Nat) b x projected, j < n → form.bindings[j]? = some b →
    exposed? b.init = some (x,projected) → s.overlap b.name x

theorem Grouped.congr {n : Nat} (grouped : Grouped form n s)
    (same : ∀ y, (t.infoOf y).group = (s.infoOf y).group) (next : t.nextGroup = s.nextGroup) :
    Grouped form n t where
  bounded x g found := next ▸ grouped.bounded x g (same x ▸ found)
  later x beyond := (same x).trans (grouped.later x beyond)
  exposes j b x projected before found exposed := by
    rw [overlap_congr same]
    exact grouped.exposes j b x projected before found exposed

/-- What a pass does with the shape it has inferred for a binding. -/
def record (s : Shapes) (b : Binding) (shape : Shape) : Shapes :=
  match exposed? b.init with
  | some (source,_) =>
    if source = b.name then s.grow b.name shape else (s.grow b.name shape).merge b.name source
  | none => s.grow b.name shape

theorem record_skipped (s : Shapes) (b : Binding) (shape : Shape) : (s.record b shape).skipped = s.skipped := by
  have grown := (grow_skipped s b.name shape).1
  unfold record
  split
  · split
    · exact grown
    · rw [merge_skipped,grown]
  · exact grown

/-- The second state says the same as the first about the first `i` names of a form. -/
structure Keeps (form : LetForm) (i : Nat) (s s' : Shapes) : Prop where
  shapes : ∀ x ∈ form.names.take i, s'.shapeOf x = s.shapeOf x
  overlaps : ∀ x ∈ form.names.take i, ∀ y ∈ form.names.take i, s'.overlap x y = s.overlap x y

theorem Keeps.refl (form : LetForm) (i : Nat) (s : Shapes) : Keeps form i s s :=
  ⟨fun _ _ => rfl,fun _ _ _ _ => rfl⟩

theorem Keeps.trans {i : Nat} {u : Shapes} (first : Keeps form i s t) (second : Keeps form i t u) :
    Keeps form i s u where
  shapes x member := (second.shapes x member).trans (first.shapes x member)
  overlaps x left y right := (second.overlaps x left y right).trans (first.overlaps x left y right)

theorem Keeps.mono {i j : Nat} (keeps : Keeps form j s t) (fewer : i ≤ j) : Keeps form i s t := by
  have more : form.names.take i ⊆ form.names.take j := (List.take_sublist_take_left fewer).subset
  exact ⟨fun x member => keeps.shapes x (more member),
    fun x left y right => keeps.overlaps x (more left) y (more right)⟩

theorem grow_group (s : Shapes) (x : String) (shape : Shape) (y : String) :
    ((s.grow x shape).infoOf y).group = (s.infoOf y).group := by
  rw [infoOf_grow]
  split
  · next here => rw [here]
  · rfl

theorem grow_shape (s : Shapes) (x : String) (shape : Shape) (y : String) :
    (s.grow x shape).shapeOf y = if y = x then (s.shapeOf x).join shape else s.shapeOf y := by
  simp only [shapeOf_eq,infoOf_grow]
  split <;> rfl

section Record

variable {form : LetForm} {n i : Nat} {s : Shapes} {b : Binding} (shape : Shape)
  (grouped : Grouped form n s) (reached : i ≤ n) (distinct : form.names.Nodup)
  (found : form.bindings[i]? = some b)
  (earlier : ∀ x projected, exposed? b.init = some (x,projected) → x ∈ form.names.take i)

include grouped reached distinct found earlier

/-- The state after a binding: either its name was merged before, or it was in no group. -/
theorem record_cases : s.record b shape = s.grow b.name shape ∧
      (∀ x projected, exposed? b.init = some (x,projected) → s.overlap b.name x) ∨
    n = i ∧ ∃ source projected, exposed? b.init = some (source,projected) ∧ source ≠ b.name ∧
      s.record b shape = (s.grow b.name shape).merge b.name source := by
  unfold record
  cases exposed : exposed? b.init with
  | none => exact .inl ⟨rfl,by simp⟩
  | some entry =>
    obtain ⟨source,projected⟩ := entry
    have different : source ≠ b.name := by
      rintro rfl
      exact name_new found distinct (earlier _ _ exposed)
    simp only [if_neg different]
    rcases Nat.lt_or_eq_of_le reached with before | same
    · have overlap := grouped.exposes i b source projected before found exposed
      refine .inl ⟨merge_overlap different.symm ?_,?_⟩
      · rwa [overlap_congr (grow_group s b.name shape)]
      · intro x _ same
        cases same
        exact overlap
    · exact .inr ⟨same.symm,source,projected,rfl,different,rfl⟩

theorem record_shape (x : String) : (s.record b shape).shapeOf x =
    if x = b.name then (s.shapeOf b.name).join shape else s.shapeOf x := by
  rcases record_cases shape grouped reached distinct found earlier with
    ⟨same,_⟩ | ⟨rfl,source,_,_,different,same⟩
  · rw [same,grow_shape]
  · have alone := (grow_group s b.name shape b.name).trans (grouped.later _ (name_new found distinct))
    rw [same,merge_alone_shape different.symm alone,grow_shape]

theorem record_keeps : Keeps form i s (s.record b shape) := by
  have other {x : String} (member : x ∈ form.names.take i) : x ≠ b.name := by
    rintro rfl
    exact name_new found distinct member
  constructor
  · intro x member
    rw [record_shape shape grouped reached distinct found earlier,if_neg (other member)]
  · intro x left y right
    have grown := overlap_congr (grow_group s b.name shape) x y
    rcases record_cases shape grouped reached distinct found earlier with
      ⟨same,_⟩ | ⟨rfl,source,_,_,different,same⟩
    · rw [same,grown]
    · have alone := (grow_group s b.name shape b.name).trans (grouped.later _ (name_new found distinct))
      have bounded := (grouped.congr (grow_group s b.name shape) (grow_skipped s b.name shape).2).bounded
      rw [same,merge_alone_keeps different.symm alone bounded (other left) (other right),grown]

theorem record_grouped : Grouped form (max n (i + 1)) (s.record b shape) := by
  have grown := grouped.congr (grow_group s b.name shape) (grow_skipped s b.name shape).2
  have more : form.names.take n ⊆ form.names.take (max n (i + 1)) :=
    (List.take_sublist_take_left (Nat.le_max_left ..)).subset
  rcases record_cases shape grouped reached distinct found earlier with
    ⟨same,overlaps⟩ | ⟨rfl,source,projected,exposed,different,same⟩
  · rw [same]
    refine ⟨grown.bounded,fun x beyond => grown.later x fun member => beyond (more member),?_⟩
    intro j c x projected before bound exposed
    by_cases old : j < n
    · exact grown.exposes j c x projected old bound exposed
    · have here : j = i := by omega
      subst here
      cases found.symm.trans bound
      rw [overlap_congr (grow_group s b.name shape)]
      exact overlaps x projected exposed
  · have new := name_new found distinct
    have alone := grown.later _ new
    have last : max n (n + 1) = n + 1 := by omega
    rw [same,last]
    refine ⟨merge_alone_bounded different.symm alone grown.bounded,?_,?_⟩
    · intro x beyond
      rw [mem_take_succ found,not_or] at beyond
      obtain ⟨g,_,infos⟩ := merge_alone different.symm alone
      have other : ¬ (x = b.name ∨ x = source) := by
        rintro (rfl | rfl)
        · exact beyond.2 rfl
        · exact beyond.1 (earlier _ _ exposed)
      rw [infos,if_neg other]
      exact grown.later x beyond.1
    · intro j c x projected before bound exposes
      by_cases old : j < n
      · -- Both names were there before, so the merging keeps what is said about them.
        have overlap := grown.exposes j c x projected old bound exposes
        have first : c.name ≠ b.name := by
          intro same
          exact new (same ▸ name_mem_take bound old)
        have second : x ≠ b.name := by
          rintro rfl
          rcases overlap_iff.mp overlap with same | ⟨g,_,grouped⟩
          · exact first same
          · cases alone.symm.trans grouped
        rw [merge_alone_keeps different.symm alone grown.bounded first second]
        exact overlap
      · have here : j = n := by omega
        subst here
        cases found.symm.trans bound
        cases exposed.symm.trans exposes
        exact merge_alone_overlap different.symm alone

end Record

end Shapes

end StagedLisp
