import StagedLisp.Proofs.Heap.Freeze

/-! Frozen groups over whole runs. Releasing groups takes away some of them with their members and
nothing else, since what a frozen cell points to is frozen. So cells and groups fit together as long
as each cell is frozen at most once; a cell that is frozen again stays listed in its former group.
-/
namespace StagedLisp

open List Heap ComponentSearch Option

namespace Heap

def tag? (h : Heap) (x : Nat) : Option Nat :=
  (h.object? x).bind fun object =>
    if object.component < 0 then none else some object.component.toNat

variable {h h' : Heap} {x : Nat}

theorem tag?_congr (same : h'.object? x = h.object? x) : h'.tag? x = h.tag? x := by
  rw [tag?,tag?,same]

theorem isLive_of_tag {g : Nat} (tagged : h.tag? x = some g) : h.isLive x = true := by
  obtain ⟨object,found,_⟩ := bind_eq_some_iff.mp tagged
  exact isLive_iff.mpr ⟨object,found⟩

theorem not_negative_of_tag {object : Object} (tagged : (h.tag? x).isSome)
    (found : h.object? x = some object) : ¬ object.component < 0 := by
  intro negative
  simp [tag?,found,negative] at tagged

end Heap

namespace FrozenGroups

inductive Action where
  | freeze (root : Nat)
  | incRef (id : Nat)
  | release (id : Nat)
deriving DecidableEq, Repr

def Action.perform (state : FrozenGroups × Heap) : Action → FrozenGroups × Heap
  | freeze root => (state.1.freeze state.2 root).2
  | incRef id => (state.1.incRef id,state.2)
  | release id => (state.1.release state.2 id).2

def runFrom (state : FrozenGroups × Heap) (actions : List Action) : FrozenGroups × Heap :=
  actions.foldl Action.perform state

/-- A cell outside the pool that is tagged is listed in the group of its tag and in no other one,
and whatever is listed is live. -/
structure Consistent (state : FrozenGroups × Heap) : Prop where
  once : ∀ x g, state.2.tag? x = some g → state.2.poolSize ≤ x → ∀ g', x ∈ state.1.membersOf g' ↔ g' = g
  live : ∀ g, ∀ x ∈ state.1.membersOf g, state.2.poolSize ≤ x → state.2.isLive x = true

/-- What is listed is tagged, and so is all that it points to. -/
structure Sealed (state : FrozenGroups × Heap) : Prop where
  tagged : ∀ g, ∀ x ∈ state.1.membersOf g, state.2.isLive x = true → (state.2.tag? x).isSome
  children : ∀ g, ∀ x ∈ state.1.membersOf g, ∀ child ∈ state.2.children x,
    state.2.isLive child = true → (state.2.tag? child).isSome

/-- Some groups have been taken away, with all their members outside the pool. -/
structure Thins (gone : List Nat) (before after : FrozenGroups × Heap) : Prop where
  poolSize : after.2.poolSize = before.2.poolSize
  members : ∀ g, after.1.membersOf g = if g ∈ gone then [] else before.1.membersOf g
  objects : ∀ x, after.2.object? x = if before.2.poolSize ≤ x ∧ ∃ g ∈ gone, x ∈ before.1.membersOf g then none
    else before.2.object? x

section Thins

variable {gone : List Nat} {before after : FrozenGroups × Heap} {f : FrozenGroups} {h : Heap}
variable {id x g : Nat} {group : Group}

namespace Thins

theorem refl (state : FrozenGroups × Heap) : Thins [] state state := ⟨rfl,by simp,by simp⟩

theorem trans {gone' : List Nat} {last : FrozenGroups × Heap} (first : Thins gone before after)
    (second : Thins gone' after last) : Thins (gone ++ gone') before last := by
  refine ⟨second.poolSize.trans first.poolSize,?_,?_⟩
  · intro g
    rw [second.members,first.members]
    by_cases early : g ∈ gone <;> by_cases late : g ∈ gone' <;> simp [early,late]
  · intro x
    rw [second.objects,first.objects,first.poolSize]
    by_cases early : ∃ g ∈ gone, x ∈ before.1.membersOf g
    · have all : ∃ g ∈ gone ++ gone', x ∈ before.1.membersOf g := by
        obtain ⟨g,member,listed⟩ := early
        exact ⟨g,mem_append_left _ member,listed⟩
      by_cases outside : before.2.poolSize ≤ x
      · simp only [outside,early,all,and_self,if_true,ite_self]
      · simp only [outside,false_and,if_false]
    · have same : (∃ g ∈ gone', x ∈ after.1.membersOf g) ↔ ∃ g ∈ gone ++ gone', x ∈ before.1.membersOf g := by
        constructor
        · rintro ⟨g,member,listed⟩
          rw [first.members] at listed
          split at listed
          · cases listed
          · exact ⟨g,mem_append_right _ member,listed⟩
        · rintro ⟨g,member,listed⟩
          have kept : g ∉ gone := fun away => early ⟨g,away,listed⟩
          rw [mem_append,or_iff_right kept] at member
          exact ⟨g,member,by rwa [first.members,if_neg kept]⟩
      simp only [early,and_false,if_false,same]

theorem origin {object : Object} (thins : Thins gone before after)
    (found : after.2.object? x = some object) : before.2.object? x = some object := by
  rw [thins.objects] at found
  split at found
  · cases found
  · exact found

theorem live_before (thins : Thins gone before after) (live : after.2.isLive x = true) :
    before.2.isLive x = true ∧ after.2.tag? x = before.2.tag? x := by
  obtain ⟨object,found⟩ := isLive_iff.mp live
  have there := thins.origin found
  exact ⟨isLive_iff.mpr ⟨object,there⟩,tag?_congr (found.trans there.symm)⟩

theorem listed_before (thins : Thins gone before after) (listed : x ∈ after.1.membersOf g) :
    g ∉ gone ∧ x ∈ before.1.membersOf g := by
  rw [thins.members] at listed
  split at listed
  · cases listed
  · next kept => exact ⟨kept,listed⟩

theorem children_before (thins : Thins gone before after) {child : Nat}
    (held : child ∈ after.2.children x) : child ∈ before.2.children x := by
  rw [Heap.children] at held ⊢
  cases found : after.2.object? x with
  | none =>
    rw [found] at held
    cases held
  | some object => rwa [thins.origin found,← found]

theorem preserves_sealed (thins : Thins gone before after) (closed : Sealed before) : Sealed after where
  tagged g x listed live := by
    obtain ⟨alive,same⟩ := thins.live_before live
    rw [same]
    exact closed.tagged g x (thins.listed_before listed).2 alive
  children g x listed child held live := by
    obtain ⟨alive,same⟩ := thins.live_before live
    rw [same]
    exact closed.children g x (thins.listed_before listed).2 child (thins.children_before held) alive

/-- The groups that are left keep their members, because these are in no other group. -/
theorem preserves_consistent (thins : Thins gone before after) (closed : Sealed before)
    (consistent : Consistent before) : Consistent after where
  once x g tagged outside g' := by
    have live := isLive_of_tag tagged
    obtain ⟨_,same⟩ := thins.live_before live
    rw [same] at tagged
    rw [thins.poolSize] at outside
    have once := consistent.once x g tagged outside
    have kept : g ∉ gone := by
      intro away
      have dead : after.2.object? x = none := by
        rw [thins.objects,if_pos ⟨outside,g,away,(once g).mpr rfl⟩]
      simp [isLive,dead] at live
    rw [thins.members]
    constructor
    · intro listed
      split at listed
      · cases listed
      · exact (once g').mp listed
    · rintro rfl
      rw [if_neg kept]
      exact (once g').mpr rfl
  live g x listed outside := by
    rw [thins.poolSize] at outside
    obtain ⟨kept,there⟩ := thins.listed_before listed
    have live := consistent.live g x there outside
    obtain ⟨t,tagged⟩ := isSome_iff_exists.mp (closed.tagged g x there live)
    have once := consistent.once x t tagged outside
    rw [isLive,thins.objects,if_neg,← isLive,live]
    rintro ⟨_,g',away,listed'⟩
    exact kept ((once g).mp there ▸ (once g').mp listed' ▸ away)

end Thins

theorem Sealed.outgoingCells (closed : Sealed (f,h)) (found : f.group? id = some group) :
    FrozenGroups.outgoingCells (outgoing h id group.members) = [] := by
  rw [FrozenGroups.outgoingCells,filterMap_eq_nil_iff]
  intro edge listed
  obtain ⟨child,pointed,target⟩ := mem_filterMap.mp listed
  obtain ⟨x,member,held⟩ := mem_flatMap.mp pointed
  rw [← membersOf_eq found] at member
  cases there : h.object? child with
  | none =>
    rw [there] at target
    cases target
  | some object =>
    have tagged := closed.children id x member child held (isLive_iff.mpr ⟨object,there⟩)
    rw [there] at target
    simp only [not_negative_of_tag tagged there,if_false] at target
    split at target
    · cases target
    · cases target
      rfl

theorem membersOf_put (f : FrozenGroups) (id : Nat) (group : Option Group) (inside : id < f.groups.size)
    (g : Nat) : (f.put id group).membersOf g =
      if g = id then (group.map Group.members).getD [] else f.membersOf g := by
  rw [membersOf,group?_put f id group inside]
  split <;> rfl

theorem thins_recount (found : f.group? id = some group) (count : Nat) :
    Thins [] (f,h) (f.put id (some { group with count }),h) := by
  refine ⟨rfl,?_,by simp⟩
  intro g
  rw [membersOf_put f id _ (group_bound found)]
  split
  · next same => simp [same,membersOf_eq found]
  · simp

theorem thins_free (found : f.group? id = some group) :
    Thins [id] (f,h) (f.put id none,(releaseEach releaseOne h group.members).2) := by
  obtain ⟨pool,objects⟩ := object?_releaseMembers h group.members
  refine ⟨pool,?_,?_⟩
  · intro g
    rw [membersOf_put f id _ (group_bound found)]
    simp
  · intro x
    rw [objects x]
    simp [membersOf_eq found,and_comm]

theorem foldl_thins {depth : Nat}
    (one : ∀ id state, Sealed state → ∃ gone, Thins gone state (releaseWithin depth id state).2)
    (pending : List Nat) (state : Nat × FrozenGroups × Heap) (closed : Sealed state.2) :
    ∃ gone, Thins gone state.2 (pending.foldl (releaseNext depth) state).2 := by
  induction pending generalizing state with
  | nil => exact ⟨[],.refl _⟩
  | cons id pending ih =>
    obtain ⟨first,thins⟩ := one id state.2 closed
    obtain ⟨rest,later⟩ := ih (releaseNext depth state id) (thins.preserves_sealed closed)
    exact ⟨first ++ rest,thins.trans later⟩

theorem releaseWithin_thins (depth id : Nat) (state : FrozenGroups × Heap) (closed : Sealed state) :
    ∃ gone, Thins gone state (releaseWithin depth id state).2 := by
  induction depth generalizing id state with
  | zero => exact ⟨[],.refl _⟩
  | succ depth ih =>
    obtain ⟨f,h⟩ := state
    cases found : f.group? id with
    | none =>
      rw [releaseWithin_none found]
      exact ⟨[],.refl _⟩
    | some group =>
      by_cases shared : 1 < group.count
      · rw [releaseWithin_shared found shared]
        exact ⟨[],thins_recount found _⟩
      · rw [releaseWithin_last found shared (closed.outgoingCells found)]
        have free := thins_free (h := h) found
        obtain ⟨rest,later⟩ := foldl_thins ih (outgoingGroups (outgoing h id group.members)).reverse
          ((releaseEach releaseOne h group.members).1.length,f.put id none,
            (releaseEach releaseOne h group.members).2) (free.preserves_sealed closed)
        exact ⟨id :: rest,free.trans later⟩

end Thins

section Freeze

variable {f : FrozenGroups} {h : Heap} {root x g : Nat}

theorem freeze_dead (dead : ¬ h.isLive root = true) : (f.freeze h root).2 = (f,h) := by
  have none : h.components root = [] := if_neg dead
  simp [freeze,none]

theorem mem_membersOf_extend (base : Nat) (parts : List (List Nat)) (h : Heap) (root : Nat) :
    x ∈ (f.extend (groupsOf h root base parts)).membersOf g ↔
      x ∈ f.membersOf g ∨ ∃ i, g = f.groups.size + i ∧ Within parts i x := by
  by_cases early : g < f.groups.size
  · rw [membersOf,group?_extend,if_pos early,← membersOf]
    refine (or_iff_left ?_).symm
    rintro ⟨i,rfl,_⟩
    omega
  · have absent : f.membersOf g = [] := by simp [membersOf,group?,early]
    obtain ⟨i,rfl⟩ := Nat.exists_eq_add_of_le (le_of_not_gt early)
    rw [absent,membersOf,group?_extend,if_neg early,Nat.add_sub_cancel_left]
    simp only [not_mem_nil,false_or,Nat.add_left_cancel_iff,exists_eq_left']
    cases found : parts[i]? with
    | none => simp [Within,groupsOf,found]
    | some members => simp [Within,groupsOf_at h root base found,found]

/-- The state after a live root has been frozen: what it reaches is in new groups and tagged with
these. -/
structure Freezes (root : Nat) (before after : FrozenGroups × Heap) (parts : List (List Nat)) :
    Prop where
  partition : Partition before.2 root parts
  poolSize : after.2.poolSize = before.2.poolSize
  members : ∀ g x, x ∈ after.1.membersOf g ↔
    x ∈ before.1.membersOf g ∨ ∃ i, g = before.1.groups.size + i ∧ Within parts i x
  children : after.2.children = before.2.children
  live : ∀ x, after.2.isLive x = before.2.isLive x
  tagged : ∀ i x, Within parts i x → after.2.tag? x = some (before.1.groups.size + i)
  others : ∀ x, x ∉ parts.flatten → after.2.tag? x = before.2.tag? x

theorem freeze_freezes (live : h.isLive root = true) :
    Freezes root (f,h) (f.freeze h root).2 (h.components root) := by
  have partition := partition_components live
  rw [freeze_eq f live]
  refine ⟨partition,poolSize_tagParts _ _ _,fun g x => mem_membersOf_extend _ _ _ _,
    partition.children_tagged _,partition.isLive_tagged _,?_,?_⟩
  · intro i x within
    obtain ⟨object,there⟩ := isLive_iff.mp (partition.within_live within)
    have natural : ¬ ((f.groups.size + i : Nat) : Int) < 0 := Int.not_lt.mpr (Int.natCast_nonneg _)
    simp only [tag?,object?_tagParts h f.groups.size partition.distinct within,there,
      map_some,bind_some,Nat.zero_add,natural,if_false,Int.toNat_natCast]
  · intro x outside
    exact tag?_congr (object?_tagParts_other h f.groups.size outside)

namespace Freezes

variable {before after : FrozenGroups × Heap} {parts : List (List Nat)}

variable (freezes : Freezes root before after parts)

include freezes

theorem isSome_tag (tagged : x ∈ parts.flatten ∨ (before.2.tag? x).isSome) : (after.2.tag? x).isSome := by
  by_cases inside : x ∈ parts.flatten
  · obtain ⟨i,within⟩ := exists_within.mpr inside
    rw [freezes.tagged i x within]
    rfl
  · rw [freezes.others x inside]
    exact tagged.resolve_left inside

theorem preserves_sealed (closed : Sealed before) : Sealed after where
  tagged g x listed live := by
    rw [freezes.live] at live
    apply freezes.isSome_tag
    rcases (freezes.members g x).mp listed with old | ⟨i,_,within⟩
    · exact .inr (closed.tagged g x old live)
    · exact .inl (exists_within.mp ⟨i,within⟩)
  children g x listed child held live := by
    rw [freezes.live] at live
    rw [freezes.children] at held
    apply freezes.isSome_tag
    rcases (freezes.members g x).mp listed with old | ⟨i,_,within⟩
    · exact .inr (closed.children g x old child held live)
    · have reached := (freezes.partition.reached x).mp (exists_within.mp ⟨i,within⟩)
      exact .inl ((freezes.partition.reached child).mpr (reached.tail ⟨held,live⟩))

theorem preserves_consistent (closed : Sealed before)
    (fresh : ∀ x, before.2.Reaches root x → before.2.poolSize ≤ x → before.2.tag? x = none)
    (consistent : Consistent before) : Consistent after where
  once x g tagged outside g' := by
    rw [freezes.poolSize] at outside
    rw [freezes.members]
    by_cases inside : x ∈ parts.flatten
    · obtain ⟨i,within⟩ := exists_within.mpr inside
      obtain rfl : before.1.groups.size + i = g := some.inj ((freezes.tagged i x within).symm.trans tagged)
      have untagged := fresh x ((freezes.partition.reached x).mp inside) outside
      have unlisted : x ∉ before.1.membersOf g' := by
        intro listed
        have := closed.tagged g' x listed (freezes.partition.within_live within)
        simp [untagged] at this
      rw [or_iff_right unlisted]
      constructor
      · rintro ⟨j,rfl,within'⟩
        rw [within_unique freezes.partition.distinct within within']
      · exact fun same => ⟨i,same,within⟩
    · rw [freezes.others x inside] at tagged
      rw [or_iff_left,consistent.once x g tagged outside]
      rintro ⟨i,_,within⟩
      exact inside (exists_within.mp ⟨i,within⟩)
  live g x listed outside := by
    rw [freezes.poolSize] at outside
    rw [freezes.live]
    rcases (freezes.members g x).mp listed with old | ⟨i,_,within⟩
    · exact consistent.live g x old outside
    · exact freezes.partition.within_live within

/-- A cell that is frozen again is in two groups. -/
theorem fresh_of_consistent (consistent : Consistent before) (still : Consistent after)
    (reached : before.2.Reaches root x) (outside : before.2.poolSize ≤ x) :
    before.2.tag? x = none := by
  by_contra tagged
  obtain ⟨g,tagged⟩ := ne_none_iff_exists'.mp tagged
  have listed := (consistent.once x g tagged outside g).mpr rfl
  obtain ⟨i,within⟩ := exists_within.mpr ((freezes.partition.reached x).mpr reached)
  have once := still.once x _ (freezes.tagged i x within) (freezes.poolSize ▸ outside) g
  have late := once.mp ((freezes.members g x).mpr (.inl listed))
  have early : g < before.1.groups.size := by
    by_contra beyond
    simp [membersOf,group?,beyond] at listed
  omega

end Freezes

end Freeze

section Runs

variable {state : FrozenGroups × Heap}

def Action.Fresh (state : FrozenGroups × Heap) : Action → Prop
  | freeze root => ∀ x, state.2.Reaches root x → state.2.poolSize ≤ x → state.2.tag? x = none
  | incRef _ | release _ => True

theorem thins_incRef (state : FrozenGroups × Heap) (id : Nat) : Thins [] state (state.1.incRef id,state.2) := by
  cases found : state.1.group? id with
  | none =>
    rw [incRef,found]
    exact .refl state
  | some group =>
    rw [incRef_eq found]
    exact thins_recount found _

theorem Sealed.perform (closed : Sealed state) (action : Action) : Sealed (action.perform state) := by
  cases action with
  | freeze root =>
    by_cases live : state.2.isLive root = true
    · exact (freeze_freezes live).preserves_sealed closed
    · rw [Action.perform,freeze_dead live]
      exact closed
  | incRef id => exact (thins_incRef state id).preserves_sealed closed
  | release id =>
    obtain ⟨gone,thins⟩ := releaseWithin_thins (state.1.groups.size + 1) id state closed
    exact thins.preserves_sealed closed

/-- Every action keeps cells and groups together, unless it freezes a cell again. -/
theorem Consistent.perform_iff (closed : Sealed state) (consistent : Consistent state)
    (action : Action) : Consistent (action.perform state) ↔ action.Fresh state := by
  cases action with
  | freeze root =>
    by_cases live : state.2.isLive root = true
    · have freezes := freeze_freezes (f := state.1) live
      exact ⟨fun still x => freezes.fresh_of_consistent consistent still,
        fun fresh => freezes.preserves_consistent closed fresh consistent⟩
    · rw [Action.perform,freeze_dead live]
      refine iff_of_true consistent fun x reaches _ => ?_
      -- A dead root reaches nothing but itself.
      have dead : state.2.object? root = none := by simpa [isLive] using live
      rcases reaches.cases_head with rfl | ⟨y,edge,_⟩
      · rw [tag?,dead,bind_none]
      · simp [Points,Heap.children,dead] at edge
  | incRef id =>
    exact iff_of_true ((thins_incRef state id).preserves_consistent closed consistent) trivial
  | release id =>
    obtain ⟨gone,thins⟩ := releaseWithin_thins (state.1.groups.size + 1) id state closed
    exact iff_of_true (thins.preserves_consistent closed consistent) trivial

theorem runFrom_concat (state : FrozenGroups × Heap) (actions : List Action) (action : Action) :
    runFrom state (actions ++ [action]) = action.perform (runFrom state actions) := by
  simp [runFrom]

theorem Sealed.run (closed : Sealed state) (actions : List Action) : Sealed (runFrom state actions) := by
  induction actions using List.reverseRecOn with
  | nil => exact closed
  | append_singleton actions action ih =>
    rw [runFrom_concat]
    exact ih.perform action

end Runs

/-- Starting with nothing frozen, cells and groups fit together at all times if and only if no
freeze reaches a cell outside the pool that has been frozen before. -/
theorem consistent_iff_frozen_once (h : Heap) (unfrozen : ∀ x, h.tag? x = none)
    (actions : List Action) :
    (∀ done, done <+: actions → Consistent (runFrom ({},h) done)) ↔
      ∀ done root, done ++ [.freeze root] <+: actions →
        ∀ x, (runFrom ({},h) done).2.Reaches root x → (runFrom ({},h) done).2.poolSize ≤ x →
          (runFrom ({},h) done).2.tag? x = none := by
  have none (g : Nat) : ({} : FrozenGroups).membersOf g = [] := by simp [membersOf,group?]
  have closed (done : List Action) : Sealed (runFrom ({},h) done) :=
    Sealed.run ⟨by simp [none],by simp [none]⟩ done
  constructor
  · intro consistent done root early
    have still := consistent _ early
    rw [runFrom_concat] at still
    have before := consistent done ((prefix_append _ _).trans early)
    exact (before.perform_iff (closed done) (.freeze root)).mp still
  · intro fresh done early
    induction done using List.reverseRecOn with
    | nil => exact ⟨by simp [runFrom,unfrozen],by simp [runFrom,none]⟩
    | append_singleton done action ih =>
      rw [runFrom_concat]
      refine ((ih ((prefix_append _ _).trans early)).perform_iff (closed done) action).mpr ?_
      cases action with
      | freeze root => exact fresh done root early
      | incRef | release => trivial

/-- An integer of the pool, held by two pairs. -/
def pooledLeaf : Heap where
  cells := #[some { content := .int 5 },some { content := .pair (some 0) none },
    some { content := .pair none (some 0) }]
  poolSize := 1

/-- Freezing both pairs, and dropping the reference to the first one. -/
def freezeBoth : List Action := [.freeze 1,.freeze 2,.release 1]

theorem freezeBoth_consistent : (∀ x, pooledLeaf.tag? x = none) ∧
    (runFrom ({},pooledLeaf) freezeBoth).2.tag? 2 = some 3 ∧
    (runFrom ({},pooledLeaf) freezeBoth).2.isLive 1 = false ∧
    Consistent (runFrom ({},pooledLeaf) freezeBoth) := by
  have unfrozen : ∀ x, pooledLeaf.tag? x = none := by
    rintro (_ | _ | _ | x)
    · rfl
    · rfl
    · rfl
    · simp [tag?,object?,pooledLeaf]
  refine ⟨unfrozen,by decide +kernel,by decide +kernel,?_⟩
  refine (consistent_iff_frozen_once pooledLeaf unfrozen freezeBoth).mpr ?_ _ (prefix_refl _)
  intro done root early x reaches outside
  have freezes : (done = [] ∧ root = 1) ∨ (done = [.freeze 1] ∧ root = 2) := by
    rcases done with _ | ⟨a,_ | ⟨b,_ | ⟨c,done⟩⟩⟩ <;> simp_all [freezeBoth]
  rcases freezes with ⟨rfl,rfl⟩ | ⟨rfl,rfl⟩
  · exact unfrozen x
  · -- The second pair reaches itself and the integer of the pool.
    have live : (runFrom ({},pooledLeaf) [.freeze 1]).2.isLive 2 = true := by decide +kernel
    have parts : (runFrom ({},pooledLeaf) [.freeze 1]).2.components 2 = [[0],[2]] := by
      decide +kernel
    have member := ((partition_components live).reached x).mpr reaches
    have positive : 1 ≤ x := outside
    rw [parts] at member
    obtain rfl : x = 2 := by
      simp at member
      omega
    decide +kernel

def lonelyCell : Heap where
  cells := #[some { content := .int 5 }]

/-- After a second freeze the cell is in two groups; and when the former one is released, the other
lists a cell that is not live. -/
theorem refrozen_inconsistent : (∀ x, lonelyCell.tag? x = none) ∧
    ¬ Consistent (runFrom ({},lonelyCell) [.freeze 0,.freeze 0]) ∧
    ¬ Consistent (runFrom ({},lonelyCell) [.freeze 0,.freeze 0,.release 0]) := by
  refine ⟨?_,?_,?_⟩
  · rintro (_ | x)
    · rfl
    · simp [tag?,object?,lonelyCell]
  · intro consistent
    have once := consistent.once 0 1 (by decide +kernel) (by decide +kernel) 0
    exact absurd (once.mp (by decide +kernel)) (by decide)
  · intro consistent
    have live := consistent.live 1 0 (by decide +kernel) (by decide +kernel)
    exact absurd live (by decide +kernel)

end FrozenGroups

end StagedLisp
