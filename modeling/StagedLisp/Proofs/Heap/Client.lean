import Mathlib.Data.Fintype.EquivFin
import Mathlib.Tactic.MkIffOfInductiveProp
import StagedLisp.Heap.Memory
import StagedLisp.Proofs.Heap.Deferred

/-! A client of the memory that keeps to the rules of ownership. The references it owns and those
that wait to be dropped account for every cell, whatever it does; so the counts are exact, no cell is
freed too early, and without circles no cell is kept too long. -/
namespace StagedLisp

open List Heap DeferredQueue Relation

namespace Heap

section Balanced

variable {h : Heap} {refs : List Nat} {id : Nat}

theorem Balanced.count_eq (balanced : Balanced h refs) {object : Object}
    (found : h.object? id = some object) (counted : h.poolSize ≤ id) :
    object.count = refs.count id + h.held.count id := by
  have exact := balanced.accounts.count id object (seen_none ▸ found) counted
  rwa [seen_none] at exact

theorem parent_live {parent : Nat} (child : id ∈ h.children parent) : h.isLive parent = true := by
  cases found : h.object? parent with
  | none =>
    rw [children,found] at child
    cases child
  | some object => exact isLive_iff.mpr ⟨object,found⟩

theorem mem_held : id ∈ h.held ↔ ∃ parent, id ∈ h.children parent := by
  unfold held
  rw [mem_flatMap]
  constructor
  · rintro ⟨parent,-,child⟩
    exact ⟨parent,child⟩
  · rintro ⟨parent,child⟩
    exact ⟨parent,mem_range.mpr (isLive_bound (parent_live child)),child⟩

theorem Balanced.held_live (balanced : Balanced h refs) (member : id ∈ h.held) : h.isLive id = true := by
  have live := Accounted.live balanced.accounts id (mem_append_right _ (seen_none ▸ member))
  rwa [seen_none] at live

theorem Balanced.referred (balanced : Balanced h refs) (counted : h.poolSize ≤ id) (live : h.isLive id = true) :
    id ∈ refs ∨ ∃ parent, h.poolSize ≤ parent ∧ h.isLive parent = true ∧ h.Points parent id := by
  obtain ⟨object,found⟩ := isLive_iff.mp live
  have positive := balanced.regular.positive id object found counted
  rw [balanced.count_eq found counted,← count_append,count_pos_iff,mem_append] at positive
  refine positive.imp_right fun member => ?_
  obtain ⟨parent,child⟩ := mem_held.mp member
  refine ⟨parent,le_of_not_gt fun inPool => ?_,parent_live child,child,live⟩
  obtain ⟨holder,holds⟩ := isLive_iff.mp (parent_live child)
  rw [children,holds,Option.map_some,Option.getD_some,poolInts_children balanced.regular holds inPool] at child
  cases child

theorem ancestors_wellFounded (acyclic : ∀ id, ¬ TransGen h.Points id id) :
    WellFounded fun a b : Fin h.cells.size => TransGen h.Points a b :=
  have : IsTrans (Fin h.cells.size) fun a b => TransGen h.Points a b :=
    ⟨fun _ _ _ first second => first.trans second⟩
  have : Std.Irrefl fun a b : Fin h.cells.size => TransGen h.Points a b := ⟨fun a => acyclic a⟩
  Finite.wellFounded_of_trans_of_irrefl _

/-- Without circles, going from holder to holder ends at a reference from outside. -/
theorem Balanced.reached (balanced : Balanced h refs)
    (acyclic : ∀ id, ¬ TransGen h.Points id id) (counted : h.poolSize ≤ id)
    (live : h.isLive id = true) : ∃ root ∈ refs, h.Reaches root id := by
  suffices ∀ cell : Fin h.cells.size, h.poolSize ≤ cell → h.isLive cell = true →
      ∃ root ∈ refs, h.Reaches root cell from this ⟨id,isLive_bound live⟩ counted live
  intro cell
  -- The holders of a cell come before it, and there are finitely many cells.
  induction cell using (ancestors_wellFounded acyclic).induction with
  | _ cell ih =>
    intro counted live
    rcases balanced.referred counted live with outside | ⟨parent,above,alive,points⟩
    · exact ⟨cell,outside,.refl⟩
    · obtain ⟨root,member,reaches⟩ := ih ⟨parent,isLive_bound alive⟩ (.single points) above alive
      exact ⟨root,member,reaches.tail points⟩

end Balanced

end Heap

namespace Memory

def pending (m : Memory) : List Nat := m.heap.pending ++ references m.deferred.entries

end Memory

structure Client where
  memory : Memory
  owned : List Nat := []

namespace Client

inductive Action where
  | newInt (value : Int64)
  | newPoolInt (value : Int64)
  | newPair (head tail : Option Nat)
  | incRef (id : Nat)
  | decRef (id : Nat)
  | setTail (id : Nat) (tail : Option Nat)
  | freeUnique (id : Nat)
  | deferFree (id : Nat)
  | deferRelease (id : Nat)
  | flushPending
  | safePoint
  | flushDeferred
  /-- A cell is given up and something else stored, in its place if possible. -/
  | reuse (id : Nat) (content : Content)

namespace Action

def drops : Action → List Nat
  | decRef id | freeUnique id | deferFree id | deferRelease id | reuse id _ => [id]
  | _ => []

def parts : Action → List Nat
  | newPair head tail => head.toList ++ tail.toList
  | setTail _ tail => tail.toList
  | reuse _ content => ({ content } : Object).children
  | _ => []

/-- The references the client loses. Those to cells of the pool are handed over for free. -/
def takes (a : Action) (h : Heap) : List Nat :=
  a.drops ++ a.parts.filter fun id => !h.inPool id

def perform (a : Action) (m : Memory) : Option Nat × Memory :=
  match a with
  | newInt value => (some (m.heap.newInt value).1,{ m with heap := (m.heap.newInt value).2 })
  | newPoolInt value =>
    (some (m.heap.newPoolInt value).1,{ m with heap := (m.heap.newPoolInt value).2 })
  | newPair head tail =>
    (some (m.heap.newPair head tail).1,{ m with heap := (m.heap.newPair head tail).2 })
  | incRef id => (some id,{ m with heap := m.heap.incRef id })
  | decRef id => (none,{ m with heap := (m.heap.decRef id).2 })
  | setTail id tail => (none,{ m with heap := m.heap.setTail id tail })
  | freeUnique id => (none,{ m with heap := (m.heap.freeUnique id).2 })
  | deferFree id => (none,{ m with heap := m.heap.deferFree id })
  | deferRelease id => (none,m.deferRelease id)
  | flushPending => (none,m.flushPending.2)
  | safePoint => (none,m.safePoint.2)
  | flushDeferred => (none,m.flushDeferred.2)
  | reuse id content =>
    let (slot,heap) := m.heap.tryReuse id
    let (id,heap) := heap.reuse slot content
    (some id,{ m with heap })

def allocates (a : Action) (h : Heap) : Bool :=
  match a with
  | newInt _ | newPoolInt _ | newPair _ _ => true
  | reuse id _ => (h.tryReuse id).1.isNone
  | _ => false

end Action

def heap (c : Client) : Heap := c.memory.heap

def pending (c : Client) : List Nat := c.memory.pending

def act (c : Client) (a : Action) : Client where
  memory := (a.perform c.memory).2
  owned := (a.perform c.memory).1.toList ++ c.owned.diff (a.takes c.heap)

/-- What else an action requires: a cell to refer to, a pair that is owned, no other reference. -/
def Requires (c : Client) : Action → Prop
  | .incRef id => c.heap.isLive id = true
  | .setTail id _ => id ∈ c.owned ∧ (c.heap.object? id).map Object.isPair = some true
  | .freeUnique id => c.heap.count? id = some 1
  | _ => True

/-- The client owns what the action takes, and stores references to live cells only. -/
@[mk_iff]
structure Permits (c : Client) (a : Action) : Prop where
  owns : (a.takes c.heap).Subperm c.owned
  live : ∀ part ∈ a.parts, c.heap.isLive part = true
  requires : c.Requires a

instance (c : Client) : (a : Action) → Decidable (c.Requires a)
  | .incRef id => inferInstanceAs (Decidable (c.heap.isLive id = true))
  | .setTail id _ => inferInstanceAs (Decidable (id ∈ c.owned ∧ (c.heap.object? id).map Object.isPair = some true))
  | .freeUnique id => inferInstanceAs (Decidable (c.heap.count? id = some 1))
  | .newInt _ | .newPoolInt _ | .newPair _ _ | .decRef _ | .deferFree _ | .deferRelease _
  | .flushPending | .safePoint | .flushDeferred | .reuse _ _ => inferInstanceAs (Decidable True)

instance (c : Client) (a : Action) : Decidable (c.Permits a) :=
  decidable_of_iff _ (permits_iff c a).symm

/-- The clients that keep to the rules, from the start of the program on. -/
inductive Runs (options : Options) : Client → Prop
  | start : Runs options { memory := .start options }
  | act {c a} : Runs options c → c.Permits a → Runs options (c.act a)

structure Accounted (pool : Nat) (c : Client) : Prop where
  poolSize : c.heap.poolSize = pool
  balanced : Balanced c.heap (c.owned ++ c.pending)
  tidy : Tidy c.memory.deferred.entries

variable {pool : Nat} {c : Client} {a : Action}

theorem Accounted.handOver (accounted : Accounted pool c) (permits : c.Permits a) :
    Balanced c.heap (a.drops ++ (a.parts ++ (c.owned.diff (a.takes c.heap) ++ c.pending))) := by
  have balanced := accounted.balanced
  have split : (a.takes c.heap ++ c.owned.diff (a.takes c.heap)).Perm c.owned :=
    subperm_append_diff_self_of_count_le fun x _ => permits.owns.count_le x
  -- Parts in the pool were not taken, but references to them do not count.
  refine ⟨balanced.regular,Heap.Accounted.reorder balanced.accounts ?_ ?_⟩
  · intro x counted
    have same := split.count_eq x
    have stored : (a.parts.filter fun id => !c.heap.inPool id).count x = a.parts.count x :=
      count_filter (by simp [inPool_eq_false.mpr counted])
    simp only [Action.takes,count_append,stored] at same ⊢
    omega
  · intro x member
    rw [seen_none]
    simp only [mem_append] at member
    rcases member with dropped | part | kept | waiting
    · apply balanced.live
      exact mem_append_left _ (split.subset (by simp [Action.takes,dropped]))
    · exact permits.live x part
    · exact balanced.live (mem_append_left _ (split.subset (mem_append_right _ kept)))
    · exact balanced.live (mem_append_right _ waiting)

section Steps

variable {m : Memory} {h' : Heap} {pool id : Nat} {owned rest : List Nat}
  (size : m.heap.poolSize = pool) (tidy : Tidy m.deferred.entries)

include size tidy

theorem Accounted.replace (balanced : Balanced h' (owned ++ m.pending)) (frame : Frame m.heap h') :
    Accounted pool ⟨{ m with heap := h' },owned⟩ := by
  refine ⟨frame.poolSize.trans size,?_,tidy⟩
  rw [Memory.pending,← frame.pending] at balanced
  exact balanced

theorem Accounted.dropped (dropped : Dropped none (rest ++ m.pending) m.heap h') :
    Accounted pool ⟨{ m with heap := h' },rest⟩ :=
  .replace size tidy dropped.balanced dropped.shrinks.frame

theorem Accounted.allocated (allocated : Allocated m.heap (rest ++ m.pending) id h') :
    Accounted pool ⟨{ m with heap := h' },id :: rest⟩ :=
  .replace size tidy allocated.balanced allocated.frame

theorem deferFree_accounted (balanced : Balanced m.heap (id :: (rest ++ m.pending))) :
    Accounted pool ⟨{ m with heap := m.heap.deferFree id },rest⟩ :=
  ⟨size,(balanced.setPending _).perm perm_middle.symm,tidy⟩

theorem deferRelease_accounted (balanced : Balanced m.heap (id :: (rest ++ m.pending))) :
    Accounted pool ⟨m.deferRelease id,rest⟩ := by
  refine ⟨size,balanced.perm ?_,tidy.defer id⟩
  have waiting : (id :: m.pending).Perm (m.deferRelease id).pending :=
    perm_middle.symm.trans ((references_defer m.deferred id tidy).symm.append_left _)
  exact perm_middle.symm.trans (waiting.append_left rest)

theorem flushPending_accounted (balanced : Balanced m.heap (rest ++ m.pending)) :
    Accounted pool ⟨m.flushPending.2,rest⟩ := by
  have first : (rest ++ m.pending).Perm (m.heap.pending ++ (rest ++ references m.deferred.entries)) := by
    rw [Memory.pending,← append_assoc,← append_assoc]
    exact perm_append_comm.append_right _
  have dropped := flush_dropped (balanced.perm first)
  have left : m.flushPending.2.pending = references m.deferred.entries :=
    congrArg (· ++ references m.deferred.entries) dropped.shrinks.pending
  refine ⟨dropped.shrinks.poolSize.trans size,?_,tidy⟩
  rw [Client.pending,left]
  exact dropped.balanced

theorem run_accounted (limit : Nat) (balanced : Balanced m.heap (rest ++ m.pending)) : Accounted pool ⟨{ m with
      deferred := (m.deferred.run limit m.heap).2.1
      heap := (m.deferred.run limit m.heap).2.2 },rest⟩ := by
  have first : (rest ++ m.pending).Perm (references m.deferred.entries ++ (rest ++ m.heap.pending)) := by
    rw [Memory.pending,← append_assoc]
    exact perm_append_comm
  obtain ⟨still,dropped⟩ := apply_dropped limit tidy (balanced.perm first)
  have after := dropped.balanced
  rw [← dropped.shrinks.pending] at after
  exact ⟨dropped.shrinks.poolSize.trans size,
    after.perm (perm_append_comm.trans (.of_eq (append_assoc rest _ _))),still⟩

theorem reuse_accounted {content : Content}
    (balanced : Balanced m.heap (id :: (({ content } : Object).children ++ (rest ++ m.pending)))) :
    Accounted pool ⟨{ m with
      heap := ((m.heap.tryReuse id).2.reuse (m.heap.tryReuse id).1 content).2 },
      ((m.heap.tryReuse id).2.reuse (m.heap.tryReuse id).1 content).1 :: rest⟩ :=
  .replace size tidy (reuse_balanced balanced).1 (reuse_balanced balanced).2

end Steps

theorem Accounted.act (accounted : Accounted pool c) (permits : c.Permits a) : Accounted pool (c.act a) := by
  have size := accounted.poolSize
  have tidy := accounted.tidy
  have handed := accounted.handOver permits
  have required := permits.requires
  cases a with
  | newInt value | newPair head tail => exact .allocated size tidy (alloc_allocated handed)
  | newPoolInt value => exact .allocated size tidy (newPoolInt_allocated handed value)
  | incRef id => exact .replace size tidy (incRef_balanced handed required) (incRef_frame _ id)
  | decRef id => exact .dropped size tidy (decRef_dropped handed.regular handed.accounts)
  | setTail id tail =>
    obtain ⟨object,found,isPair⟩ := Option.map_eq_some_iff.mp required.2
    cases content : object.content with
    | int value => rw [Object.isPair,content] at isPair; cases isPair
    | pair head old => exact .dropped size tidy (setTail_dropped handed found content)
  | freeUnique id => exact .dropped size tidy (freeUnique_dropped handed required)
  | deferFree id => exact deferFree_accounted size tidy handed
  | deferRelease id => exact deferRelease_accounted size tidy handed
  | flushPending => exact flushPending_accounted size tidy handed
  | safePoint | flushDeferred => exact run_accounted size tidy _ handed
  | reuse id content => exact reuse_accounted size tidy handed

theorem Accounted.fresh (accounted : Accounted pool c) (permits : c.Permits a)
    (allocates : a.allocates c.heap = true) :
    ∃ id, (a.perform c.memory).1 = some id ∧ c.heap.isLive id = false := by
  have handed := accounted.handOver permits
  cases a with
  | newInt value | newPair head tail => exact ⟨_,rfl,(alloc_allocated handed).fresh⟩
  | newPoolInt value => exact ⟨_,rfl,(newPoolInt_allocated handed value).fresh⟩
  | reuse id content =>
    refine ⟨_,rfl,(reuse_shared handed ?_).fresh⟩
    intro counted unique
    rw [Action.allocates,tryReuse_unique counted unique] at allocates
    cases allocates
  | _ => cases allocates

theorem Accounted.start (options : Options) : Accounted options.poolSize { memory := .start options } := by
  refine ⟨rfl,withPool_balanced options.poolSize,nodup_nil,?_⟩
  intro entry member
  cases member

theorem Runs.accounted {options : Options} (runs : Runs options c) : Accounted options.poolSize c := by
  induction runs with
  | start => exact .start options
  | act _ permits ih => exact ih.act permits

/-- Whatever a client does that keeps to the rules of ownership, the count of each cell outside the
pool is the number of references to it: those it owns, those that wait to be dropped and those in the
cells. What is referred to is live, so nothing is freed too early and what is allocated was free; and
unless there are circles, what is live can be reached. -/
theorem refcounts_exact {options : Options} {c : Client} (runs : Runs options c) :
    (∀ id object, c.heap.object? id = some object → options.poolSize ≤ id →
      object.count = c.owned.count id + c.pending.count id + c.heap.held.count id) ∧
    (∀ id, ∀ child ∈ c.heap.children id, c.heap.isLive child = true) ∧
    (∀ a, c.Permits a →
      (∀ id, c.heap.isLive id = true → (c.act a).heap.isLive id = false →
        id ∉ (c.act a).owned ∧ id ∉ (c.act a).pending ∧ id ∉ (c.act a).heap.held) ∧
      (a.allocates c.heap = true →
        ∃ id, (a.perform c.memory).1 = some id ∧ c.heap.isLive id = false)) ∧
    ((∀ id, ¬ Relation.TransGen c.heap.Points id id) → ∀ id, options.poolSize ≤ id →
      (c.heap.isLive id = true ↔ ∃ root ∈ c.owned ++ c.pending, c.heap.Reaches root id)) := by
  have accounted := runs.accounted
  have balanced := accounted.balanced
  rw [← accounted.poolSize]
  refine ⟨?_,?_,?_,?_⟩
  · intro id object found counted
    rw [balanced.count_eq found counted,count_append]
  · exact fun id child member => balanced.held_live (mem_held.mpr ⟨id,member⟩)
  · intro a permits
    refine ⟨?_,accounted.fresh permits⟩
    intro id _ freed
    have after := (accounted.act permits).balanced
    have absent {P : Prop} (live : P → (c.act a).heap.isLive id = true) : ¬ P := by
      intro member
      rw [live member] at freed
      cases freed
    exact ⟨absent fun member => after.live (mem_append_left _ member),
      absent fun member => after.live (mem_append_right _ member),absent after.held_live⟩
  · intro acyclic id counted
    constructor
    · exact balanced.reached acyclic counted
    · rintro ⟨root,member,reaches⟩
      exact reaches.live (balanced.live member)

/-- A pair that is owned once, deferred once and held by another pair. -/
def sharedThrice : Client :=
  [.newPoolInt 7,.newInt 1,.newPair (some 1) (some 0),.incRef 2,.incRef 2,.newPair (some 2) none,
    .deferRelease 2].foldl act { memory := .start { poolSize := 1 } }

theorem sharedThrice_descends {a b : Nat} (points : sharedThrice.heap.Points a b) : b < a := by
  have small : ∀ a < sharedThrice.heap.cells.size, ∀ b ∈ sharedThrice.heap.children a, b < a := by
    decide
  exact small a (isLive_bound (parent_live points.1)) b points.1

theorem sharedThrice_acyclic (id : Nat) : ¬ TransGen sharedThrice.heap.Points id id := by
  have descends {a b : Nat} (way : TransGen sharedThrice.heap.Points a b) : b < a := by
    induction way with
    | single points => exact sharedThrice_descends points
    | tail _ points ih => exact (sharedThrice_descends points).trans ih
  exact fun circle => lt_irrefl id (descends circle)

theorem sharedThrice_exact : Runs { poolSize := 1 } sharedThrice ∧
    sharedThrice.heap.count? 2 = some 3 ∧
    3 = sharedThrice.owned.count 2 + sharedThrice.pending.count 2 + sharedThrice.heap.held.count 2 ∧
    sharedThrice.Permits (.decRef 3) ∧ 3 ∉ (sharedThrice.act (.decRef 3)).heap.held ∧
    (∃ root ∈ sharedThrice.owned ++ sharedThrice.pending, sharedThrice.heap.Reaches root 1) := by
  have runs : Runs { poolSize := 1 } sharedThrice :=
    .act (.act (.act (.act (.act (.act (.act .start (by decide)) (by decide)) (by decide))
      (by decide)) (by decide)) (by decide)) (by decide)
  have permits : sharedThrice.Permits (.decRef 3) := by decide
  obtain ⟨counts,-,acts,reached⟩ := refcounts_exact runs
  exact ⟨runs,by decide,counts 2 _ rfl (by decide),permits,
    ((acts (.decRef 3) permits).1 3 (by decide) (by decide)).2.2,
    (reached sharedThrice_acyclic 1 (by decide)).mp (by decide)⟩

end Client

end StagedLisp
