import StagedLisp.Heap.Frozen
import StagedLisp.Proofs.Heap.Cascade
import StagedLisp.Proofs.Heap.Components
import StagedLisp.Proofs.Heap.Release

/-! The collapse of frozen groups that count the references among them. None is freed before those that
point to it; and as these come after it, in the end all are freed. -/
namespace StagedLisp

open List Cascade Heap

namespace Heap

theorem release_fst (h : Heap) (id : Nat) : (h.release id).1 = (decide (h.poolSize ≤ id) && h.isLive id) := by
  unfold release
  split
  · next kept =>
    have : h.poolSize ≤ id → h.isLive id = false := by simpa [inPool,imp_iff_not_or] using kept
    by_cases outside : h.poolSize ≤ id <;> simp_all
  · next freed => simpa [inPool] using freed

def releaseOne (id : Nat) (h : Heap) : List Nat × Heap :=
  (if (h.release id).1 then [id] else [],(h.release id).2)

theorem releaseOne_poolSize (id : Nat) (h : Heap) : (releaseOne id h).2.poolSize = h.poolSize := by
  unfold releaseOne release
  split <;> rfl

theorem object?_releaseOne (id : Nat) (h : Heap) (x : Nat) : (releaseOne id h).2.object? x =
    if x = id ∧ h.poolSize ≤ x then none else h.object? x := by
  by_cases same : x = id
  · subst same
    by_cases freed : h.poolSize ≤ x ∧ h.isLive x = true
    · simp [releaseOne,object?_release freed.1 freed.2,freed.1]
    · have kept : (h.inPool x || !h.isLive x) = true := by
        rcases not_and_or.mp freed with inside | dead
        · simp [inPool,Nat.lt_of_not_le inside]
        · simp [dead]
      simp only [releaseOne,release,kept,if_true]
      split
      · next outside => simpa [isLive,outside.2] using freed
      · rfl
  · rw [if_neg fun both => same both.1]
    unfold releaseOne release
    split
    · rfl
    · exact (congrFun (object?_clear h id) x).trans (Function.update_of_ne same _ _)

theorem object?_releaseMembers (h : Heap) (members : List Nat) :
    (releaseEach releaseOne h members).2.poolSize = h.poolSize ∧
    ∀ x, (releaseEach releaseOne h members).2.object? x =
      if x ∈ members ∧ h.poolSize ≤ x then none else h.object? x := by
  rw [releaseEach_snd]
  induction members generalizing h with
  | nil => simp
  | cons id members ih =>
    obtain ⟨pool,objects⟩ := ih (releaseOne id h).2
    rw [releaseOne_poolSize] at pool objects
    refine ⟨pool,fun x => (objects x).trans ?_⟩
    rw [object?_releaseOne]
    by_cases outside : h.poolSize ≤ x
    · by_cases later : x ∈ members <;> simp [outside,later]
    · simp [outside]

theorem releaseEach_members (h : Heap) (members : List Nat) (distinct : members.Nodup)
    (live : ∀ x ∈ members, h.isLive x = true) :
    (releaseEach releaseOne h members).1 = members.filter fun x => decide (h.poolSize ≤ x) := by
  induction members generalizing h with
  | nil => simp [releaseEach]
  | cons id members ih =>
    obtain ⟨fresh,distinct⟩ := nodup_cons.mp distinct
    have later : ∀ x ∈ members, (releaseOne id h).2.isLive x = true := by
      intro x member
      have other : x ≠ id := fun same => fresh (same ▸ member)
      rw [isLive,object?_releaseOne,if_neg (by simp [other])]
      exact live x (.tail _ member)
    have released := ih (releaseOne id h).2 distinct later
    rw [releaseOne_poolSize] at released
    have one : (releaseOne id h).1 = if h.poolSize ≤ id then [id] else [] := by
      simp [releaseOne,release_fst,live id mem_cons_self]
    rw [releaseEach_cons]
    by_cases outside : h.poolSize ≤ id <;> simp [released,one,outside]

end Heap

namespace FrozenGroups

def membersOf (f : FrozenGroups) (id : Nat) : List Nat :=
  ((f.group? id).map Group.members).getD []

/-- The groups that the members of a group point to, once for each reference. -/
def targets (f : FrozenGroups) (h : Heap) (id : Nat) : List Nat :=
  outgoingGroups (outgoing h id (f.membersOf id))

def countOf (f : FrozenGroups) (first id : Nat) : Option Nat :=
  if id < first then none else (f.group? id).map Group.count

def groupsFrom (f : FrozenGroups) (first : Nat) : List Nat :=
  List.range' first (f.groups.size - first)

/-- The groups from `first` on hold live cells that point to one another only: those of a group to
cells of the same or of earlier groups. They count the references among them and those in `refs`. -/
structure Condensed (first : Nat) (refs : List Nat) (f : FrozenGroups) (h : Heap) : Prop where
  counted : ∀ id ∈ f.groupsFrom first, ∃ n, f.countOf first id = some n ∧ 0 < n
  exact : Exact (f.countOf first) (f.targets h) refs (f.groupsFrom first)
  referred : ∀ id ∈ refs, id ∈ f.groupsFrom first
  earlier : ∀ id ∈ f.groupsFrom first, ∀ target ∈ f.targets h id, first ≤ target ∧ target < id
  live : ∀ id ∈ f.groupsFrom first, ∀ x ∈ f.membersOf id, h.isLive x = true
  distinct : ∀ id ∈ f.groupsFrom first, (f.membersOf id).Nodup
  apart : ∀ id ∈ f.groupsFrom first, ∀ id' ∈ f.groupsFrom first, ∀ x ∈ f.membersOf id,
    x ∈ f.membersOf id' → id = id'
  frozen : ∀ id ∈ f.groupsFrom first, outgoingCells (outgoing h id (f.membersOf id)) = []
  inside : ∀ id ∈ f.groupsFrom first, ∀ x ∈ f.membersOf id, ∀ child ∈ h.children x,
    h.isLive child = true → ∃ target, (target = id ∨ target ∈ f.targets h id) ∧ child ∈ f.membersOf target

theorem group?_put (f : FrozenGroups) (id : Nat) (group : Option Group) (inside : id < f.groups.size)
    (x : Nat) : (f.put id group).group? x = if x = id then group else f.group? x := by
  simp only [group?,put,Array.getD_eq_getD_getElem?]
  by_cases same : x = id
  · subst same
    simp [inside]
  · rw [Array.getElem?_setIfInBounds_ne (Ne.symm same),if_neg same]

variable {f : FrozenGroups} {id first : Nat} {group : Group}

theorem group_bound (found : f.group? id = some group) : id < f.groups.size := by
  by_contra outside
  rw [group?,Array.getD_eq_getD_getElem?,Array.getElem?_eq_none (le_of_not_gt outside)] at found
  cases found

theorem mem_groupsFrom : id ∈ f.groupsFrom first ↔ first ≤ id ∧ id < f.groups.size := by
  rw [groupsFrom,mem_range'_1]
  omega

theorem countOf_eq (found : f.group? id = some group) (listed : first ≤ id) :
    f.countOf first id = some group.count := by
  simp [countOf,found,not_lt.mpr listed]

theorem membersOf_eq (found : f.group? id = some group) : f.membersOf id = group.members := by
  simp [membersOf,found]

def reclaimed (f : FrozenGroups) (h : Heap) (gone : List Nat) : List Nat :=
  (gone.flatMap f.membersOf).filter fun x => decide (h.poolSize ≤ x)

/-- The groups `frozen` in the heap `start` after references have been dropped, of which `todo` are
left and by which `gone` have been freed. No group is freed before one that points to it. -/
structure Collapses (first : Nat) (refs : List Nat) (frozen : FrozenGroups) (start : Heap)
    (todo gone : List Nat) (f : FrozenGroups) (h : Heap) : Prop where
  stage : Stage (frozen.countOf first) (frozen.targets start) refs todo gone
  size : f.groups.size = frozen.groups.size
  poolSize : h.poolSize = start.poolSize
  groups : ∀ id, f.group? id = if id ∈ gone then none else (frozen.group? id).map fun group =>
    { group with count := group.count - dropped (frozen.targets start) refs todo gone id }
  objects : ∀ x, h.object? x = if x ∈ frozen.reclaimed start gone then none else start.object? x
  closed : ∀ id ∈ frozen.groupsFrom first, ∀ target ∈ frozen.targets start id, target ∈ gone → id ∈ gone

section Collapses

variable {first : Nat} {refs todo gone : List Nat} {frozen f : FrozenGroups} {start h : Heap}
variable {id depth : Nat} {group : Group}

theorem Condensed.target_listed (condensed : Condensed first refs frozen start)
    (listed : id ∈ frozen.groupsFrom first) {target : Nat}
    (points : target ∈ frozen.targets start id) : target ∈ frozen.groupsFrom first := by
  obtain ⟨late,less⟩ := condensed.earlier id listed target points
  have := mem_groupsFrom.mp listed
  exact mem_groupsFrom.mpr ⟨late,by omega⟩

theorem Condensed.due_listed (condensed : Condensed first refs frozen start)
    (among : gone ⊆ frozen.groupsFrom first) {x : Nat}
    (member : x ∈ due (frozen.targets start) refs gone) : x ∈ frozen.groupsFrom first := by
  rcases mem_append.mp member with given | held
  · exact condensed.referred x given
  · obtain ⟨holder,listed,points⟩ := mem_flatMap.mp held
    exact condensed.target_listed (among listed) points

namespace Collapses

variable (condensed : Condensed first refs frozen start)

include condensed

theorem todo_listed (collapses : Collapses first refs frozen start (id :: todo) gone f h) :
    id ∈ frozen.groupsFrom first := by
  apply condensed.due_listed (condensed.exact.gone_subset collapses.stage)
  have := collapses.stage.referred
  exact count_pos_iff.mp (by omega)

omit condensed in
theorem origin (collapses : Collapses first refs frozen start todo gone f h)
    (found : f.group? id = some group) : id ∉ gone ∧ ∃ before, frozen.group? id = some before ∧
      group = { before with
        count := before.count - dropped (frozen.targets start) refs todo gone id } := by
  rw [collapses.groups id] at found
  split at found
  · cases found
  · next left =>
    obtain ⟨before,there,same⟩ := Option.map_eq_some_iff.mp found
    exact ⟨left,before,there,same.symm⟩

theorem kept (collapses : Collapses first refs frozen start todo gone f h)
    (listed : id ∈ frozen.groupsFrom first) (left : id ∉ gone) {x : Nat}
    (member : x ∈ frozen.membersOf id) : h.object? x = start.object? x := by
  rw [collapses.objects x,if_neg]
  intro freed
  obtain ⟨other,away,there⟩ := mem_flatMap.mp (mem_filter.mp freed).1
  have among := condensed.exact.gone_subset collapses.stage away
  exact left (condensed.apart id listed other among x member there ▸ away)

theorem outgoing_eq (collapses : Collapses first refs frozen start todo gone f h)
    (listed : id ∈ frozen.groupsFrom first) (left : id ∉ gone) :
    outgoing h id (frozen.membersOf id) = outgoing start id (frozen.membersOf id) := by
  have children : (frozen.membersOf id).flatMap h.children = (frozen.membersOf id).flatMap start.children := by
    apply flatMap_congr
    intro x member
    rw [Heap.children,Heap.children,collapses.kept condensed listed left member]
  unfold outgoing
  rw [children]
  apply filterMap_congr
  intro child pointed
  obtain ⟨x,member,held⟩ := mem_flatMap.mp pointed
  have same : h.object? child = start.object? child := by
    by_cases live : start.isLive child = true
    · obtain ⟨target,points,there⟩ := condensed.inside id listed x member child held live
      rcases points with rfl | points
      · exact collapses.kept condensed listed left there
      · refine collapses.kept condensed (condensed.target_listed listed points) ?_ there
        exact fun away => left (collapses.closed id listed target points away)
    · have dead : start.object? child = none := by simpa [isLive] using live
      rw [collapses.objects child,dead,ite_self]
  rw [same]

omit condensed in
theorem skip (collapses : Collapses first refs frozen start (id :: todo) gone f h)
    (absent : f.group? id = none) : Collapses first refs frozen start todo gone f h := by
  have away : id ∈ gone ∨ frozen.group? id = none := by
    rw [collapses.groups id] at absent
    split at absent
    · next member => exact .inl member
    · exact .inr (Option.map_eq_none_iff.mp absent)
  refine ⟨?_,collapses.size,collapses.poolSize,?_,collapses.objects,collapses.closed⟩
  · apply collapses.stage.keep
    intro left n counts
    rcases away with member | none
    · exact absurd member left
    · simp [countOf,none] at counts
  · intro x
    rw [collapses.groups x,collapses.stage.dropped_cons x]
    by_cases same : x = id
    · subst same
      rcases away with member | none
      · simp [member]
      · simp [none]
    · simp [same]

theorem lower (collapses : Collapses first refs frozen start (id :: todo) gone f h)
    (found : f.group? id = some group) (shared : 1 < group.count) :
    Collapses first refs frozen start todo gone (f.put id (some { group with count := group.count - 1 })) h := by
  obtain ⟨late,inside⟩ := mem_groupsFrom.mp (collapses.todo_listed condensed)
  obtain ⟨left,before,there,rfl⟩ := collapses.origin found
  have one := collapses.stage.dropped_cons id
  simp only [if_true] at one shared
  refine ⟨?_,?_,collapses.poolSize,?_,collapses.objects,collapses.closed⟩
  · apply collapses.stage.keep
    intro _ n counts
    rw [countOf_eq there late,Option.some.injEq] at counts
    omega
  · simpa [put] using collapses.size
  · intro x
    rw [group?_put f id _ (group_bound found)]
    by_cases same : x = id
    · subst same
      simp [left,there,one,Nat.sub_sub]
    · rw [if_neg same,collapses.groups x,collapses.stage.dropped_cons x]
      simp [same]

/-- The last reference is dropped: the members are freed, and the references out of the group are to be
dropped next. -/
theorem free (collapses : Collapses first refs frozen start (id :: todo) gone f h)
    (found : f.group? id = some group) (last : ¬ 1 < group.count) :
    Collapses first refs frozen start (frozen.targets start id ++ todo) (id :: gone) (f.put id none)
      (releaseEach releaseOne h group.members).2 ∧
    (releaseEach releaseOne h group.members).1.length + (frozen.reclaimed start gone).length =
      (frozen.reclaimed start (id :: gone)).length ∧
    outgoing h id group.members = outgoing start id (frozen.membersOf id) := by
  have listed := collapses.todo_listed condensed
  obtain ⟨late,inside⟩ := mem_groupsFrom.mp listed
  obtain ⟨left,before,there,rfl⟩ := collapses.origin found
  have members := membersOf_eq there
  have one := collapses.stage.dropped_cons id
  have live : ∀ x ∈ frozen.membersOf id, h.isLive x = true := by
    intro x member
    rw [isLive,collapses.kept condensed listed left member]
    exact condensed.live id listed x member
  have released := h.releaseEach_members (frozen.membersOf id) (condensed.distinct id listed) live
  obtain ⟨poolSize,objects⟩ := h.object?_releaseMembers (frozen.membersOf id)
  simp only [if_true] at one last
  simp only [← members]
  have done : before.count ≤ dropped (frozen.targets start) refs todo gone id := by omega
  have falls := collapses.stage.fall left (countOf_eq there late) done
  refine ⟨⟨falls,?_,?_,?_,?_,?_⟩,?_,collapses.outgoing_eq condensed listed left⟩
  · simpa [put] using collapses.size
  · exact poolSize.trans collapses.poolSize
  · intro x
    rw [group?_put f id _ (group_bound found),dropped_fall]
    by_cases same : x = id
    · simp [same]
    · rw [if_neg same,collapses.groups x,collapses.stage.dropped_cons x]
      simp [same]
  · intro x
    rw [objects x,collapses.objects x,collapses.poolSize]
    by_cases freed : x ∈ frozen.membersOf id ∧ start.poolSize ≤ x
    · simp [reclaimed,freed]
    · rw [if_neg freed]
      have same : x ∈ frozen.reclaimed start (id :: gone) ↔ x ∈ frozen.reclaimed start gone := by
        simp only [reclaimed,mem_filter,flatMap_cons,mem_append,decide_eq_true_eq,or_and_right,freed,false_or]
      simp only [same]
  · intro holder among target points away
    rcases mem_cons.mp away with rfl | away
    · exact condensed.exact.holder_gone falls (countOf_eq there late) (by rwa [dropped_fall]) among points
    · exact mem_cons_of_mem _ (collapses.closed holder among target points away)
  · rw [released,collapses.poolSize]
    simp [reclaimed]

omit condensed in
theorem perm {todo' : List Nat} (collapses : Collapses first refs frozen start todo gone f h)
    (same : todo.Perm todo') : Collapses first refs frozen start todo' gone f h := by
  refine { collapses with stage := collapses.stage.perm same, groups := ?_ }
  intro x
  rw [collapses.groups x]
  simp only [dropped,same.count_eq]

end Collapses

def releaseNext (depth : Nat) (state : Nat × FrozenGroups × Heap) (next : Nat) : Nat × FrozenGroups × Heap :=
  (state.1 + (releaseWithin depth next state.2).1,(releaseWithin depth next state.2).2)

/-- Of the groups after `gone`, more have been freed, and `total` has grown by their cells. -/
def Reclaims (first : Nat) (refs : List Nat) (frozen : FrozenGroups) (start : Heap)
    (todo gone : List Nat) (total : Nat) (result : Nat × FrozenGroups × Heap) : Prop :=
  ∃ gone', gone.length ≤ gone'.length ∧ Collapses first refs frozen start todo gone' result.2.1 result.2.2 ∧
    result.1 + (frozen.reclaimed start gone).length = total + (frozen.reclaimed start gone').length

theorem Reclaims.earlier {mid : List Nat} {total total' : Nat} {result : Nat × FrozenGroups × Heap}
    (reclaims : Reclaims first refs frozen start todo mid total' result)
    (longer : gone.length ≤ mid.length) (freed : total' + (frozen.reclaimed start gone).length =
      total + (frozen.reclaimed start mid).length) :
    Reclaims first refs frozen start todo gone total result := by
  obtain ⟨after,longer',collapses,count⟩ := reclaims
  exact ⟨after,by omega,collapses,by omega⟩

theorem releaseWithin_none (absent : f.group? id = none) : releaseWithin (depth + 1) id (f,h) = (0,f,h) := by
  simp only [releaseWithin,absent]

theorem releaseWithin_shared (found : f.group? id = some group) (shared : 1 < group.count) :
    releaseWithin (depth + 1) id (f,h) = (0,f.put id (some { group with count := group.count - 1 }),h) := by
  simp only [releaseWithin,found,shared,if_true]

theorem releaseWithin_last (found : f.group? id = some group) (last : ¬ 1 < group.count)
    (only : outgoingCells (outgoing h id group.members) = []) :
    releaseWithin (depth + 1) id (f,h) =
      (outgoingGroups (outgoing h id group.members)).reverse.foldl (releaseNext depth)
        ((releaseEach releaseOne h group.members).1.length,f.put id none,
          (releaseEach releaseOne h group.members).2) := by
  simp only [releaseWithin,found,last,if_false,only]
  rfl

end Collapses

end FrozenGroups

end StagedLisp
