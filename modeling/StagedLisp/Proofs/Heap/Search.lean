import Mathlib.Data.Finset.Card
import Mathlib.Data.Finset.Range
import Mathlib.Data.List.Nodup
import StagedLisp.Heap.Components
import StagedLisp.Proofs.Heap.Cells

/-! States of the component search. The invariant speaks of the path of cells being visited: each of
them leads to all that was entered after it and has no component yet, and from each cell without a
component one of them can be reached. -/
namespace StagedLisp.Heap

open List

namespace ComponentSearch

def Entered (s : ComponentSearch) (id : Nat) : Prop := (s.enteredAt? id).isSome = true

instance (s : ComponentSearch) : DecidablePred s.Entered :=
  fun id => inferInstanceAs (Decidable ((s.enteredAt? id).isSome = true))

def time (s : ComponentSearch) (id : Nat) : Nat := (s.enteredAt? id).getD 0

variable {s s' : ComponentSearch} {id : Nat} {components : List (List Nat)}

theorem Entered.at (entered : s.Entered id) : s.enteredAt? id = some (s.time id) := by
  obtain ⟨time,found⟩ := Option.isSome_iff_exists.mp entered
  simp [ComponentSearch.time,found]

theorem not_entered_iff : ¬ s.Entered id ↔ s.enteredAt? id = none := by
  simp [Entered]

theorem enteredAt?_enter (bound : id < s.entered.size) (other : Nat) :
    (s.enter id).enteredAt? other = if other = id then some s.clock else s.enteredAt? other := by
  rw [enteredAt?,enter,Array.getD_eq_getD_getElem?,Array.getElem?_setIfInBounds]
  by_cases same : id = other
  · subst same
    simp [bound]
  · rw [if_neg same,if_neg (fun equal => same equal.symm),enteredAt?,Array.getD_eq_getD_getElem?]

def Within (components : List (List Nat)) (i id : Nat) : Prop :=
  ∃ members, components[i]? = some members ∧ id ∈ members

theorem exists_within : (∃ i, Within components i id) ↔ id ∈ components.flatten := by
  rw [mem_flatten]
  constructor
  · rintro ⟨i,members,found,member⟩
    exact ⟨members,mem_of_getElem? found,member⟩
  · rintro ⟨members,listed,member⟩
    obtain ⟨i,found⟩ := mem_iff_getElem?.mp listed
    exact ⟨i,members,found,member⟩

/-- The components found so far: their cells lead to one another, and otherwise to earlier
components only. -/
structure Completed (h : Heap) (components : List (List Nat)) : Prop where
  sinks : ∀ i x y, Within components i x → h.Points x y → ∃ j ≤ i, Within components j y
  linked : ∀ members ∈ components, ∀ x ∈ members, ∀ y ∈ members, h.Reaches x y
  inhabited : [] ∉ components

theorem completed_nil (h : Heap) : Completed h [] := by
  constructor <;> simp [Within]

theorem Within.append {i : Nat} (within : Within components i id) (more : List (List Nat)) :
    Within (components ++ more) i id := by
  obtain ⟨members,found,member⟩ := within
  refine ⟨members,?_,member⟩
  rw [getElem?_append_left (List.getElem?_eq_some_iff.mp found).1]
  exact found

theorem Completed.snoc {h : Heap} {members : List Nat} (completed : Completed h components)
    (closed : ∀ x ∈ members, ∀ y, h.Points x y → y ∈ members ∨ y ∈ components.flatten)
    (linked : ∀ x ∈ members, ∀ y ∈ members, h.Reaches x y) (inhabited : members ≠ []) :
    Completed h (components ++ [members]) := by
  constructor
  · intro i x y within edge
    by_cases earlier : i < components.length
    · obtain ⟨others,found,member⟩ := within
      rw [getElem?_append_left earlier] at found
      obtain ⟨j,bound,within⟩ := completed.sinks i x y ⟨others,found,member⟩ edge
      exact ⟨j,bound,within.append _⟩
    · obtain ⟨others,found,member⟩ := within
      obtain ⟨bound,_⟩ := List.getElem?_eq_some_iff.mp found
      rw [length_append,length_singleton] at bound
      obtain rfl : i = components.length := by omega
      rw [getElem?_concat_length,Option.some.injEq] at found
      subst found
      rcases closed x member y edge with inside | before
      · exact ⟨_,le_rfl,members,getElem?_concat_length,inside⟩
      · obtain ⟨j,within⟩ := exists_within.mpr before
        have bound := (List.getElem?_eq_some_iff.mp within.choose_spec.1).1
        exact ⟨j,bound.le,within.append _⟩
  · intro others listed
    rcases mem_append.mp listed with listed | listed
    · exact completed.linked others listed
    · rw [mem_singleton.mp listed]
      exact linked
  · intro listed
    rcases mem_append.mp listed with listed | listed
    · exact completed.inhabited listed
    · exact inhabited (mem_singleton.mp listed).symm

/-- What the search has found, while the cells on the path are being visited. -/
structure Sound (h : Heap) (root : Nat) (path : List Nat) (s : ComponentSearch) : Prop where
  size : s.entered.size = h.cells.size
  known : ∀ id, s.Entered id ↔ id ∈ s.stack ++ s.components.flatten
  apart : (s.stack ++ s.components.flatten).Nodup
  early : ∀ id, s.Entered id → s.time id < s.clock
  ordered : s.stack.Pairwise fun a b => s.time b < s.time a
  onStack : ∀ id ∈ path, id ∈ s.stack
  explored : ∀ x, s.Entered x → x ∉ path → ∀ y, h.Points x y → s.Entered y
  rooted : ∀ id, s.Entered id → h.Reaches root id
  down : ∀ x ∈ path, ∀ y ∈ s.stack, s.time x ≤ s.time y → h.Reaches x y
  up : ∀ y ∈ s.stack, ∃ x ∈ path, s.time x ≤ s.time y ∧ h.Reaches y x
  completed : Completed h s.components

structure Extends (s s' : ComponentSearch) : Prop where
  stack : s.stack <:+ s'.stack
  components : s.components <+: s'.components
  clock : s.clock ≤ s'.clock
  same : ∀ id, s.Entered id → s'.enteredAt? id = s.enteredAt? id
  fresh : ∀ id, s'.Entered id → ¬ s.Entered id → s.clock ≤ s'.time id

theorem Extends.refl (s : ComponentSearch) : Extends s s :=
  ⟨suffix_refl _,prefix_refl _,le_rfl,fun _ _ => rfl, fun _ entered not => absurd entered not⟩

theorem Extends.entered (e : Extends s s') (entered : s.Entered id) : s'.Entered id := by
  rw [Entered,e.same id entered]
  exact entered

theorem Extends.time (e : Extends s s') (entered : s.Entered id) : s'.time id = s.time id := by
  rw [ComponentSearch.time,e.same id entered]
  rfl

theorem Extends.trans {s'' : ComponentSearch} (first : Extends s s') (second : Extends s' s'') : Extends s s'' := by
  refine ⟨first.stack.trans second.stack,first.components.trans second.components,
    first.clock.trans second.clock,?_,?_⟩
  · intro id entered
    rw [second.same id (first.entered entered),first.same id entered]
  · intro id entered not
    by_cases between : s'.Entered id
    · rw [second.time between]
      exact first.fresh id between not
    · exact first.clock.trans (second.fresh id entered between)

section Enter

variable {h : Heap} {root id : Nat} {path : List Nat} {s : ComponentSearch}

theorem Sound.bound (sound : Sound h root path s) (live : h.isLive id = true) : id < s.entered.size := by
  rw [sound.size]
  exact isLive_bound live

theorem Sound.stacked (sound : Sound h root path s) (member : id ∈ s.stack) : s.Entered id :=
  (sound.known id).mpr (mem_append_left _ member)

theorem extends_enter (bound : id < s.entered.size) (new : ¬ s.Entered id) : Extends s (s.enter id) := by
  have table := enteredAt?_enter bound
  refine ⟨suffix_cons _ _,prefix_refl _,Nat.le_succ _,?_,?_⟩
  · intro other entered
    rw [table,if_neg]
    rintro rfl
    exact new entered
  · intro other entered not
    rw [Entered,table] at entered
    rw [time,table]
    split at entered
    · next same => rw [if_pos same,Option.getD_some]
    · exact absurd entered not

theorem time_enter (bound : id < s.entered.size) : (s.enter id).time id = s.clock := by
  rw [time,enteredAt?_enter bound,if_pos rfl,Option.getD_some]

theorem entered_enter (bound : id < s.entered.size) (other : Nat) :
    (s.enter id).Entered other ↔ other = id ∨ s.Entered other := by
  rw [Entered,enteredAt?_enter bound]
  split
  · next same => simp [same]
  · next other => simp [other,Entered]

theorem Sound.enter (sound : Sound h root path s) (live : h.isLive id = true)
    (new : ¬ s.Entered id) (reached : h.Reaches root id) (led : ∀ x ∈ path, h.Reaches x id) :
    Sound h root (id :: path) (s.enter id) := by
  have bound := sound.bound live
  have extended := extends_enter bound new
  have entered := entered_enter bound
  have older {other : Nat} (member : other ∈ s.stack) :
      (s.enter id).time other = s.time other := extended.time (sound.stacked member)
  have before {other : Nat} (member : other ∈ s.stack) : s.time other < s.clock :=
    sound.early other (sound.stacked member)
  have outside : id ∉ s.stack ++ s.components.flatten := fun member => new ((sound.known id).mpr member)
  constructor
  · rw [ComponentSearch.enter,Array.size_setIfInBounds]
    exact sound.size
  · intro other
    rw [entered,sound.known other]
    simp [ComponentSearch.enter]
  · exact nodup_cons.mpr ⟨outside,sound.apart⟩
  · intro other there
    rcases (entered other).mp there with rfl | there
    · rw [time_enter bound]
      exact Nat.lt_succ_self _
    · rw [extended.time there]
      exact Nat.lt_succ_of_lt (sound.early other there)
  · refine pairwise_cons.mpr ⟨?_,?_⟩
    · intro other member
      rw [time_enter bound,older member]
      exact before member
    · apply sound.ordered.imp_of_mem
      intro a b memberA memberB less
      rwa [older memberA,older memberB]
  · intro other member
    rcases mem_cons.mp member with rfl | member
    · exact mem_cons_self
    · exact mem_cons_of_mem _ (sound.onStack other member)
  · intro x there off y edge
    rcases (entered x).mp there with rfl | there
    · exact absurd mem_cons_self off
    · have off : x ∉ path := fun member => off (.tail _ member)
      exact extended.entered (sound.explored x there off y edge)
  · intro other there
    rcases (entered other).mp there with rfl | there
    · exact reached
    · exact sound.rooted other there
  · intro x onPath y onStack later
    rcases mem_cons.mp onPath with rfl | above <;> rcases mem_cons.mp onStack with rfl | below
    · exact .refl
    · rw [time_enter bound,older below] at later
      exact absurd (before below) (not_lt.mpr later)
    · exact led x above
    · rw [older below,older (sound.onStack x above)] at later
      exact sound.down x above y below later
  · intro y member
    rcases mem_cons.mp member with rfl | member
    · exact ⟨y,mem_cons_self,le_rfl,.refl⟩
    · obtain ⟨x,onPath,later,reaches⟩ := sound.up y member
      refine ⟨x,mem_cons_of_mem _ onPath,?_,reaches⟩
      rwa [older member,older (sound.onStack x onPath)]
  · exact sound.completed

end Enter

def remaining (h : Heap) (s : ComponentSearch) : Nat :=
  ((Finset.range h.cells.size).filter fun id => ¬ s.Entered id).card

section Later

variable {h : Heap} {root id : Nat} {path : List Nat} {s s' : ComponentSearch}

theorem Extends.remaining_le (later : Extends s s') : remaining h s' ≤ remaining h s := by
  apply Finset.card_le_card
  apply Finset.monotone_filter_right
  exact fun other _ new entered => new (later.entered entered)

theorem remaining_enter (bound : id < s.entered.size) (live : h.isLive id = true)
    (new : ¬ s.Entered id) : remaining h (s.enter id) < remaining h s := by
  apply Finset.card_lt_card
  refine Finset.ssubset_iff_of_subset ?_ |>.mpr ⟨id,?_,?_⟩
  · apply Finset.monotone_filter_right
    exact fun other _ open' entered => open' ((extends_enter bound new).entered entered)
  · exact Finset.mem_filter.mpr ⟨Finset.mem_range.mpr (isLive_bound live),new⟩
  · intro member
    exact (Finset.mem_filter.mp member).2 ((entered_enter bound _).mpr (.inl rfl))

theorem Extends.stacked {path' : List Nat} (later : Extends s s') (sound : Sound h root path s)
    (sound' : Sound h root path' s') {y : Nat} (member : y ∈ s'.stack) :
    y ∈ s.stack ∧ s'.time y = s.time y ∨ y ∉ s.stack ∧ s.clock ≤ s'.time y := by
  by_cases entered : s.Entered y
  · refine .inl ⟨?_,later.time entered⟩
    rcases mem_append.mp ((sound.known y).mp entered) with before | complete
    · exact before
    · have complete' := later.components.flatten.subset complete
      exact absurd complete' (disjoint_of_nodup_append sound'.apart member)
  · exact .inr ⟨fun before => entered (sound.stacked before), later.fresh y (sound'.stacked member) entered⟩

/-- The time is that of a cell on the stack that the given cell leads to. -/
def Attains (h : Heap) (s : ComponentSearch) (id low : Nat) : Prop :=
  ∃ y ∈ s.stack, s.time y = low ∧ h.Reaches id y

theorem Sound.attains_lt (sound : Sound h root path s) {low : Nat} (attains : Attains h s id low) :
    low < s.clock := by
  obtain ⟨y,member,rfl,_⟩ := attains
  exact sound.early y (sound.stacked member)

theorem Sound.attained_min (sound : Sound h root path s) {low other : Nat}
    (attained : low = s.clock ∨ Attains h s id low)
    (next : s.clock ≤ other ∨ Attains h s id other) :
    min low other = s.clock ∨ Attains h s id (min low other) := by
  have bound : low ≤ s.clock := by
    rcases attained with rfl | attains
    · exact le_rfl
    · exact (sound.attains_lt attains).le
  rcases next with beyond | attains
  · rwa [Nat.min_eq_left (bound.trans beyond)]
  · rcases Nat.le_total low other with less | more
    · rwa [Nat.min_eq_left less]
    · rw [Nat.min_eq_right more]
      exact .inr attains

end Later

end ComponentSearch

end StagedLisp.Heap
