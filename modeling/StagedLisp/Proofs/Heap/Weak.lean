import StagedLisp.Heap.Memory
import StagedLisp.Proofs.Heap.Operations

/-! Weak references over whole runs. A reference is readable until it is invalidated, by itself or
because a strong release has freed its target; whatever is stored in the cell later does not matter.
Releases that take another way are not noticed. -/
namespace StagedLisp

open List Heap Option

namespace Heap

def content? (h : Heap) (x : Nat) : Option Content := (h.object? x).map Object.content

theorem isLive_eq_content (h : Heap) (x : Nat) : h.isLive x = (h.content? x).isSome := by
  rw [isLive,content?,isSome_map]

structure Frees (h : Heap) (gone : List Nat) (h' : Heap) : Prop where
  live : ∀ x ∈ gone, h.isLive x = true
  contents : ∀ x, h'.content? x = if x ∈ gone then none else h.content? x
  regular : Regular h → Regular h'

section Frees

variable {h mid h' : Heap} {gone gone' : List Nat} {x id : Nat} {object : Object}

theorem Frees.isLive (frees : Frees h gone h') : h'.isLive x = true ↔ h.isLive x = true ∧ x ∉ gone := by
  rw [isLive_eq_content,isLive_eq_content,frees.contents]
  split <;> simp [*]

theorem Frees.mem_gone (frees : Frees h gone h') : x ∈ gone ↔ h.isLive x = true ∧ h'.isLive x = false := by
  rw [Bool.eq_false_iff,ne_eq,frees.isLive,not_and_not_right]
  exact ⟨fun member => ⟨frees.live x member,fun _ => member⟩,fun freed => freed.2 freed.1⟩

theorem Frees.trans (first : Frees h gone mid) (second : Frees mid gone' h') : Frees h (gone ++ gone') h' := by
  refine ⟨?_,?_,fun regular => second.regular (first.regular regular)⟩
  · intro x member
    rcases mem_append.mp member with early | late
    · exact first.live x early
    · exact (first.isLive.mp (second.live x late)).1
  · intro x
    rw [second.contents,first.contents]
    by_cases early : x ∈ gone <;> by_cases late : x ∈ gone' <;> simp [early,late]

theorem content?_recount (found : h.object? id = some object) (count : Nat) :
    (h.put id { object with count }).content? = h.content? := by
  funext x
  rw [content?,content?,object?_put (object_bound found),Function.update_apply]
  split
  · next same => rw [same,found,map_some,map_some]
  · rfl

theorem decRef_frees (h : Heap) (id : Nat) : Frees h (h.decRef id).1 (h.decRef id).2 := by
  refine decRef_worklist (I := fun _ done h' => Frees h done h') ?_ ?_ ?_ []
    ⟨by simp,by simp,fun regular => regular⟩
  · exact fun _ _ _ _ _ before => before
  · intro id _ done h object outside found shared before
    refine ⟨before.live,fun x => ?_,fun regular => ?_⟩
    · rw [content?_recount found]
      exact before.contents x
    · have regular := before.regular regular
      exact regular.put found (fun _ => Nat.sub_pos_of_lt shared) (regular.poolInts id object found)
  · intro id _ done h object outside found _ before
    have live : h.isLive id = true := isLive_iff.mpr ⟨object,found⟩
    refine before.trans ⟨by simp [live],fun x => ?_,fun regular => regular.release outside found⟩
    rw [content?,object?_release outside live,Function.update_apply,content?]
    simp only [mem_singleton]
    split <;> rfl

end Frees

structure Retains (h h' : Heap) : Prop where
  contents : ∀ x, h.isLive x = true → h'.content? x = h.content? x
  regular : Regular h'

section Retains

variable {h h' : Heap} {id x : Nat} {content : Content}

theorem Stored.retains (stored : Stored h id content h') : Retains h h' := by
  refine ⟨fun x live => ?_,stored.regular⟩
  have other : x ≠ id := by
    rintro rfl
    rw [stored.fresh] at live
    cases live
  rw [content?,stored.objects,Function.update_of_ne other,content?]

theorem incRef_retains (regular : Regular h) (id : Nat) : Retains h (h.incRef id) := by
  unfold incRef update
  split
  · exact ⟨fun _ _ => rfl,regular⟩
  · split
    · next object found =>
      refine ⟨fun x _ => by rw [content?_recount found],?_⟩
      exact regular.put found (fun _ => Nat.succ_pos _) (regular.poolInts id object found)
    · exact ⟨fun _ _ => rfl,regular⟩

end Retains

end Heap

namespace WeakTable

variable (table : WeakTable) {w : Nat}

theorem target?_add_old (x : Nat) (made : w < table.refs.size) : (table.add x).2.target? w = table.target? w := by
  simp [target?,add,Array.getElem?_push,made.ne]

theorem target?_add_new (x : Nat) : (table.add x).2.target? table.refs.size = some x := by
  simp [target?,add,Option.filter]

theorem target?_invalidate (v : Nat) :
    (table.invalidate v).target? w = if v = w then none else table.target? w := by
  simp only [target?,invalidate,Array.getD_eq_getD_getElem?,Array.getElem?_modify]
  split
  · rcases table.refs[w]? with _ | _ | ref <;> simp [Option.filter]
  · rfl

theorem target?_invalidateTarget (x : Nat) :
    (table.invalidateTarget x).2.target? w = (table.target? w).filter (· != x) := by
  simp only [target?,invalidateTarget,Array.getD_eq_getD_getElem?,Array.getElem?_map]
  rcases table.refs[w]? with _ | _ | ⟨target,alive⟩
  · rfl
  · rfl
  · by_cases same : target = x <;> cases alive <;> simp [refersTo,same,Option.filter]

theorem target?_cleanup : table.cleanup.2.target? w = table.target? w := by
  simp only [target?,cleanup,Array.getD_eq_getD_getElem?,Array.getElem?_map]
  rcases table.refs[w]? with _ | _ | ⟨target,alive⟩
  · rfl
  · rfl
  · cases alive <;> rfl

def invalidateEach (cells : List Nat) : WeakTable :=
  cells.foldl (fun table cell => (table.invalidateTarget cell).2) table

theorem target?_invalidateEach (cells : List Nat) {t : Nat} :
    (table.invalidateEach cells).target? w = some t ↔ table.target? w = some t ∧ t ∉ cells := by
  induction cells generalizing table with
  | nil => simp [invalidateEach]
  | cons x cells ih =>
    refine (ih (table.invalidateTarget x).2).trans ?_
    rw [target?_invalidateTarget,filter_eq_some_iff]
    simp [and_assoc]

theorem size_invalidateEach (cells : List Nat) : (table.invalidateEach cells).refs.size = table.refs.size := by
  induction cells generalizing table with
  | nil => rfl
  | cons x cells ih => exact (ih _).trans (by simp [invalidateTarget])

end WeakTable

namespace Memory

inductive Action where
  | newInt (value : Int64)
  | newPoolInt (value : Int64)
  | newPair (head tail : Option Nat)
  | incRef (id : Nat)
  | newWeak (target : Nat)
  | invalidate (ref : Nat)
  | releaseStrong (id : Nat)
  | cleanup
  | decRef (id : Nat)
  | freeTree (id : Nat)
  | freeUnique (id : Nat)
  | setTail (id : Nat) (tail : Option Nat)
  | deferFree (id : Nat)
  | flushPending
  | deferRelease (id : Nat)
  | safePoint
  | flushDeferred
  | freeze (root : Nat)
  | incGroup (id : Nat)
  | releaseGroup (id : Nat)
  | shutdown
deriving DecidableEq, Repr

namespace Action

def perform (a : Action) (m : Memory) : Memory :=
  match a with
  | newInt value => { m with heap := (m.heap.newInt value).2 }
  | newPoolInt value => { m with heap := (m.heap.newPoolInt value).2 }
  | newPair head tail => { m with heap := (m.heap.newPair head tail).2 }
  | incRef id => { m with heap := m.heap.incRef id }
  | newWeak target => { m with weak := (m.weak.add target).2 }
  | invalidate ref => { m with weak := m.weak.invalidate ref }
  | releaseStrong id => (m.releaseStrong id).2
  | cleanup => { m with weak := m.weak.cleanup.2 }
  | decRef id => { m with heap := (m.heap.decRef id).2 }
  | freeTree id => { m with heap := (m.heap.freeTree id).2 }
  | freeUnique id => { m with heap := (m.heap.freeUnique id).2 }
  | setTail id tail => { m with heap := m.heap.setTail id tail }
  | deferFree id => { m with heap := m.heap.deferFree id }
  | flushPending => m.flushPending.2
  | deferRelease id => m.deferRelease id
  | safePoint => m.safePoint.2
  | flushDeferred => m.flushDeferred.2
  | freeze root => (m.freeze root).2
  | incGroup id => { m with frozen := m.frozen.incRef id }
  | releaseGroup id => (m.releaseGroup id).2
  | shutdown => m.shutdown.2

def isStrong : Action → Bool
  | releaseStrong _ => true
  | _ => false

/-- The actions among which only strong releases free cells. -/
def isTracked : Action → Bool
  | newInt _ | newPoolInt _ | newPair _ _ | incRef _ | newWeak _ | invalidate _ | releaseStrong _
  | cleanup => true
  | _ => false

def Frees (a : Action) (m : Memory) (x : Nat) : Prop :=
  m.heap.isLive x = true ∧ (a.perform m).heap.isLive x = false

end Action

def run (m : Memory) (actions : List Action) : Memory := actions.foldl (fun m a => a.perform m) m

/-- One of the actions, which is as stated, frees the cell. -/
def FreedBy (p : Action → Prop) (m : Memory) (actions : List Action) (x : Nat) : Prop :=
  ∃ done a, done ++ [a] <+: actions ∧ p a ∧ a.Frees (m.run done) x

section Steps

variable {m : Memory} {a : Action} {w t x : Nat}

theorem Action.frees_strong (id : Nat) : (releaseStrong id).Frees m x ↔ x ∈ (m.heap.decRef id).1 :=
  (decRef_frees m.heap id).mem_gone.symm

theorem size_perform (a : Action) (m : Memory) : m.weak.refs.size ≤ (a.perform m).weak.refs.size := by
  cases a with
  | newWeak target => simp [Action.perform,WeakTable.add]
  | invalidate ref => simp [Action.perform,WeakTable.invalidate]
  | releaseStrong id => exact (m.weak.size_invalidateEach _).ge
  | cleanup => simp [Action.perform,WeakTable.cleanup]
  | shutdown => simp [Action.perform,shutdown,flushPending,flushDeferred,WeakTable.cleanup]
  | _ => exact le_rfl

theorem target?_perform (a : Action) (made : w < m.weak.refs.size) :
    (a.perform m).weak.target? w = some t ↔ m.weak.target? w = some t ∧ a ≠ .invalidate w ∧
      ¬ (a.isStrong = true ∧ a.Frees m t) := by
  cases a with
  | newWeak target =>
    refine (Eq.congr_left (m.weak.target?_add_old target made)).trans ?_
    simp [Action.isStrong]
  | invalidate ref =>
    refine (Eq.congr_left (m.weak.target?_invalidate ref)).trans ?_
    by_cases same : ref = w <;> simp [same,Action.isStrong]
  | releaseStrong id =>
    refine (m.weak.target?_invalidateEach (m.heap.decRef id).1).trans ?_
    simp [Action.frees_strong,Action.isStrong]
  | cleanup | shutdown =>
    refine (Eq.congr_left m.weak.target?_cleanup).trans ?_
    simp [Action.isStrong]
  | _ => exact (and_iff_left ⟨by simp,by simp [Action.isStrong]⟩).symm

end Steps

section Runs

variable {m : Memory} {p q : Action → Prop} {actions : List Action} {w t x : Nat}

theorem run_concat (m : Memory) (actions : List Action) (a : Action) :
    m.run (actions ++ [a]) = a.perform (m.run actions) := by
  simp [run]

theorem freedBy_nil : ¬ FreedBy p m [] x := by
  rintro ⟨done,a,early,_⟩
  simp at early

theorem freedBy_concat (a : Action) : FreedBy p m (actions ++ [a]) x ↔
    FreedBy p m actions x ∨ (p a ∧ a.Frees (m.run actions) x) := by
  simp only [FreedBy,prefix_concat_iff]
  constructor
  · rintro ⟨done,b,last | early,kind,frees⟩
    · obtain ⟨rfl,same⟩ := append_inj' last rfl
      cases same
      exact .inr ⟨kind,frees⟩
    · exact .inl ⟨done,b,early,kind,frees⟩
  · rintro (⟨done,b,early,kind,frees⟩ | ⟨kind,frees⟩)
    · exact ⟨done,b,.inr early,kind,frees⟩
    · exact ⟨actions,a,.inl rfl,kind,frees⟩

theorem size_run (m : Memory) (actions : List Action) : m.weak.refs.size ≤ (m.run actions).weak.refs.size := by
  induction actions using List.reverseRecOn with
  | nil => exact le_rfl
  | append_singleton actions a ih =>
    rw [run_concat]
    exact ih.trans (size_perform a _)

/-- A reference reads as it did, unless it has been invalidated or a strong release has freed the
cell. -/
theorem target?_run (made : w < m.weak.refs.size) (actions : List Action) :
    (m.run actions).weak.target? w = some t ↔ m.weak.target? w = some t ∧
      .invalidate w ∉ actions ∧ ¬ FreedBy (·.isStrong = true) m actions t := by
  induction actions using List.reverseRecOn with
  | nil => simp [run,freedBy_nil]
  | append_singleton actions a ih =>
    rw [run_concat,target?_perform a (made.trans_le (size_run m actions)),ih,freedBy_concat]
    simp only [mem_append,mem_singleton,not_or,ne_comm,ne_eq]
    tauto

theorem FreedBy.mono (freed : FreedBy p m actions x) (weaker : ∀ a ∈ actions, p a → q a) :
    FreedBy q m actions x := by
  obtain ⟨done,a,early,kind,frees⟩ := freed
  exact ⟨done,a,early,weaker a (early.subset (by simp)) kind,frees⟩

theorem exists_dead_iff (live : m.heap.isLive x = true) (actions : List Action) :
    (∃ done, done <+: actions ∧ (m.run done).heap.isLive x = false) ↔ FreedBy (fun _ => True) m actions x := by
  induction actions using List.reverseRecOn with
  | nil =>
    refine iff_of_false ?_ freedBy_nil
    rintro ⟨done,early,dead⟩
    rw [prefix_nil.mp early,run,foldl_nil,live] at dead
    cases dead
  | append_singleton actions a ih =>
    rw [freedBy_concat,← ih]
    constructor
    · rintro ⟨done,early,dead⟩
      rcases prefix_concat_iff.mp early with rfl | early
      · cases before : (m.run actions).heap.isLive x with
        | false => exact .inl ⟨actions,prefix_refl _,before⟩
        | true => exact .inr ⟨trivial,before,run_concat m actions a ▸ dead⟩
      · exact .inl ⟨done,early,dead⟩
    · rintro (⟨done,early,dead⟩ | ⟨_,_,dead⟩)
      · exact ⟨done,early.trans (prefix_append _ _),dead⟩
      · exact ⟨actions ++ [a],prefix_refl _,run_concat m actions a ▸ dead⟩

end Runs

section Tracked

variable {m : Memory} {a : Action} {x : Nat}

/-- A tracked action keeps the contents of a live cell, unless it is a strong release that frees it.
-/
theorem perform_tracked (tracked : a.isTracked = true) (regular : Regular m.heap) :
    Regular (a.perform m).heap ∧ (m.heap.isLive x = true →
      (a.perform m).heap.content? x = m.heap.content? x ∨ (a.isStrong = true ∧ a.Frees m x)) := by
  have retained {h : Heap} (retains : Retains m.heap h) : Regular h ∧ (m.heap.isLive x = true →
      h.content? x = m.heap.content? x ∨ (a.isStrong = true ∧ a.Frees m x)) :=
    ⟨retains.regular,fun live => .inl (retains.contents x live)⟩
  cases a with
  | newInt value | newPair head tail => exact retained (alloc_stored regular _).retains
  | newPoolInt value => exact retained (newPoolInt_stored regular value).retains
  | incRef id => exact retained (incRef_retains regular id)
  | newWeak | invalidate | cleanup => exact retained ⟨fun _ _ => rfl,regular⟩
  | releaseStrong id =>
    have frees := decRef_frees m.heap id
    refine ⟨frees.regular regular,fun live => ?_⟩
    by_cases gone : x ∈ (m.heap.decRef id).1
    · exact .inr ⟨rfl,(Action.frees_strong id).mpr gone⟩
    · exact .inl ((frees.contents x).trans (if_neg gone))
  | _ => cases tracked

theorem Action.Frees.strong (frees : a.Frees m x) (tracked : a.isTracked = true)
    (regular : Regular m.heap) : a.isStrong = true := by
  rcases (perform_tracked tracked regular).2 frees.1 with kept | strong
  · have dead := frees.2
    rw [isLive_eq_content,kept,← isLive_eq_content,frees.1] at dead
    cases dead
  · exact strong.1

variable {actions : List Action}

variable (tracked : ∀ a ∈ actions, a.isTracked = true) (regular : Regular m.heap)

include tracked regular

theorem run_regular : Regular (m.run actions).heap := by
  induction actions using List.reverseRecOn with
  | nil => exact regular
  | append_singleton actions a ih =>
    rw [run_concat]
    have before := ih fun b member => tracked b (mem_append_left _ member)
    exact (perform_tracked (x := 0) (tracked a (by simp)) before).1

theorem freedBy_strong : FreedBy (fun _ => True) m actions x ↔ FreedBy (·.isStrong = true) m actions x := by
  refine ⟨?_,fun freed => freed.mono fun _ _ _ => trivial⟩
  rintro ⟨done,a,early,_,frees⟩
  have among {b : Action} (member : b ∈ done ++ [a]) := tracked b (early.subset member)
  have before := run_regular (fun b member => among (mem_append_left _ member)) regular
  exact ⟨done,a,early,frees.strong (among (by simp)) before,frees⟩

theorem content?_run (live : m.heap.isLive x = true) (kept : ¬ FreedBy (·.isStrong = true) m actions x) :
    (m.run actions).heap.content? x = m.heap.content? x := by
  induction actions using List.reverseRecOn with
  | nil => rfl
  | append_singleton actions a ih =>
    rw [freedBy_concat,not_or] at kept
    have earlier (b : Action) (member : b ∈ actions) := tracked b (mem_append_left _ member)
    have same := ih earlier kept.1
    have still : (m.run actions).heap.isLive x = true := by
      rw [isLive_eq_content,same,← isLive_eq_content,live]
    rw [run_concat]
    rcases (perform_tracked (tracked a (by simp)) (run_regular earlier regular)).2 still with
      unchanged | freed
    · exact unchanged.trans same
    · exact absurd freed kept.2

end Tracked

theorem target?_since (m : Memory) (target : Nat) (after : List Action) {t : Nat} :
    (((Action.newWeak target).perform m).run after).weak.target? m.weak.refs.size = some t ↔
      t = target ∧ .invalidate m.weak.refs.size ∉ after ∧
        ¬ FreedBy (·.isStrong = true) ((Action.newWeak target).perform m) after target := by
  have bound : m.weak.refs.size < ((Action.newWeak target).perform m).weak.refs.size := by
    simp [Action.perform,WeakTable.add]
  have reads : ((Action.newWeak target).perform m).weak.target? m.weak.refs.size = some target :=
    m.weak.target?_add_new target
  rw [target?_run bound after,reads,some.injEq,eq_comm]
  exact and_congr_right fun same => by rw [same]

/-- A weak reference reads as the cell it was made for, as long as it is not invalidated and the
cell is not freed, and no longer: not even when the cell is in use again. While it is readable, the
cell holds what it held. -/
theorem weak_tracks_release (options : Options) (before after : List Action) (target : Nat)
    (tracked : ∀ a ∈ before ++ after, a.isTracked = true)
    (live : ((start options).run before).heap.isLive target = true) :
    let m := (start options).run before
    let made := (Action.newWeak target).perform m
    (∀ t, (made.run after).weak.target? m.weak.refs.size = some t ↔
      t = target ∧ .invalidate m.weak.refs.size ∉ after ∧
        ¬ FreedBy (fun _ => True) made after target) ∧
    ((made.run after).weak.target? m.weak.refs.size = some target →
      (made.run after).heap.content? target = m.heap.content? target) := by
  intro m made
  have later (a : Action) (member : a ∈ after) := tracked a (mem_append_right _ member)
  have regular : Regular made.heap :=
    run_regular (fun a member => tracked a (mem_append_left _ member))
      (withPool_balanced options.poolSize).regular
  constructor
  · intro t
    rw [freedBy_strong later regular]
    exact target?_since m target after
  · intro readable
    exact content?_run later regular live ((target?_since m target after).mp readable).2.2

/-- A pair that holds an integer, and a weak reference to the integer. -/
def observedLeaf : Memory :=
  (Action.newWeak 0).perform ((start { poolSize := 0 }).run [.newInt 1,.newPair (some 0) none])

/-- Releasing the pair frees the integer too. The cell is used again, but the reference is not
readable any more. -/
theorem observedLeaf_tracked :
    (∀ a ∈ [Action.newInt 1,.newPair (some 0) none] ++ [.releaseStrong 1,.newInt 7],
      a.isTracked = true) ∧
    ((start { poolSize := 0 }).run [.newInt 1,.newPair (some 0) none]).heap.isLive 0 = true ∧
    (observedLeaf.run [.releaseStrong 1,.newInt 7]).heap.content? 0 = some (.int 7) ∧
    (observedLeaf.run [.releaseStrong 1,.newInt 7]).weak.target? 0 ≠ some 0 := by
  refine ⟨by decide,by decide +kernel,by decide +kernel,fun readable => ?_⟩
  have tracks := (weak_tracks_release { poolSize := 0 } [.newInt 1,.newPair (some 0) none]
    [.releaseStrong 1,.newInt 7] 0 (by decide) (by decide +kernel)).1 0
  refine (tracks.mp readable).2.2 ⟨[],.releaseStrong 1,by simp,trivial,?_,?_⟩
  · decide +kernel
  · decide +kernel

/-- A weak reference to a live cell is read after the cell has been freed if and only if it was not
invalidated, and each of the releases that freed the cell took another way than the strong one. -/
theorem weak_dangles_iff (m : Memory) (target : Nat) (after : List Action)
    (live : m.heap.isLive target = true) :
    let made := (Action.newWeak target).perform m
    (∃ t, (made.run after).weak.target? m.weak.refs.size = some t ∧
      ∃ done, done <+: after ∧ (made.run done).heap.isLive t = false) ↔
    .invalidate m.weak.refs.size ∉ after ∧ FreedBy (fun _ => True) made after target ∧
      ¬ FreedBy (·.isStrong = true) made after target := by
  intro made
  have since {t : Nat} := target?_since m target after (t := t)
  have alive : made.heap.isLive target = true := live
  constructor
  · rintro ⟨t,readable,dead⟩
    obtain ⟨rfl,valid,missed⟩ := since.mp readable
    exact ⟨valid,(exists_dead_iff alive after).mp dead,missed⟩
  · rintro ⟨valid,freed,missed⟩
    exact ⟨target,since.mpr ⟨rfl,valid,missed⟩,(exists_dead_iff alive after).mpr freed⟩

def observedInt : Memory := (start { poolSize := 0 }).run [.newInt 5]

/-- A release that is put off frees the integer, and the reference reads as what is stored next. -/
theorem observedInt_dangles : observedInt.heap.isLive 0 = true ∧
    ∃ t, (((Action.newWeak 0).perform observedInt).run
        [.deferRelease 0,.safePoint,.newInt 7]).weak.target? 0 = some t ∧
      ∃ done, done <+: [.deferRelease 0,.safePoint,.newInt 7] ∧
        (((Action.newWeak 0).perform observedInt).run done).heap.isLive t = false := by
  have live : observedInt.heap.isLive 0 = true := by decide +kernel
  refine ⟨live,(weak_dangles_iff observedInt 0 [.deferRelease 0,.safePoint,.newInt 7] live).mpr ?_⟩
  refine ⟨by decide,⟨[.deferRelease 0],.safePoint,by simp,trivial,?_,?_⟩,?_⟩
  · decide +kernel
  · decide +kernel
  · rintro ⟨done,a,early,strong,_⟩
    have member := early.subset (mem_append_right done mem_cons_self)
    simp only [mem_cons,not_mem_nil,or_false] at member
    rcases member with rfl | rfl | rfl <;> cases strong

/-- What a weak reference to the integer reads as after some releases, and whether the cell is live.
-/
def observe (releases : List Action) : Option Nat × Bool :=
  let m := ((Action.newWeak 0).perform observedInt).run releases
  (m.weak.target? 0,m.heap.isLive 0)

/-- Each of the other ways to release a cell leaves a weak reference to it readable. -/
theorem unnoticed_releases :
    observe [.deferRelease 0,.safePoint] = (some 0,false) ∧
    observe [.deferRelease 0,.shutdown] = (some 0,false) ∧
    observe [.deferFree 0,.shutdown] = (some 0,false) ∧
    observe [.freeze 0,.releaseGroup 0] = (some 0,false) := by
  decide +kernel

end Memory

end StagedLisp
