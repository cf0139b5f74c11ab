import StagedLisp.Heap.Memory
import StagedLisp.Proofs.Heap.Cascade
import StagedLisp.Proofs.Heap.Deferred

/-! Dropping references in any order. A heap from which references have been dropped is determined by
the heap it was at the start, the references, and the cells that fell with them; so it does not matter
in which order they are dropped, nor whether some of them wait in a queue. -/
namespace StagedLisp

open List Cascade Option

namespace Heap

def counted (h : Heap) (id : Nat) : Option Nat :=
  if id < h.poolSize then none else h.count? id

def lessen (h : Heap) (id dropped : Nat) (object : Object) : Object :=
  if id < h.poolSize then object else { object with count := object.count - dropped }

/-- The heap `start` after references have been dropped, of which `todo` are left and by which `gone`
have been freed. -/
structure Drops (start : Heap) (refs todo gone : List Nat) (h : Heap) : Prop where
  stage : Stage start.counted start.children refs todo gone
  size : h.cells.size = start.cells.size
  poolSize : h.poolSize = start.poolSize
  objects : ∀ id, h.object? id = if id ∈ gone then none else
    (start.object? id).map (start.lessen id (dropped start.children refs todo gone id))
  recycled : h.recycled = gone ++ start.recycled
  freed : h.freed = start.freed + gone.length

section Drops

variable {start h : Heap} {refs todo gone : List Nat} {id : Nat} {object : Object}

theorem counted_eq (found : h.object? id = some object) (outside : h.poolSize ≤ id) :
    h.counted id = some object.count := by
  simp [counted,count?,found,not_lt.mpr outside]

theorem live_of_counted {n : Nat} (counts : h.counted id = some n) :
    h.poolSize ≤ id ∧ ∃ object, h.object? id = some object := by
  unfold counted at counts
  split at counts
  · cases counts
  · next outside =>
    obtain ⟨object,found,_⟩ := map_eq_some_iff.mp counts
    exact ⟨le_of_not_gt outside,object,found⟩

theorem lessen_pool (inside : id < h.poolSize) (n : Nat) : h.lessen id n = fun object => object := by
  funext object
  exact if_pos inside

theorem lessen_counted (outside : h.poolSize ≤ id) (n : Nat) :
    h.lessen id n object = { object with count := object.count - n } :=
  if_neg (not_lt.mpr outside)

namespace Drops

theorem refl (h : Heap) : Drops h [] [] [] h := by
  refine ⟨.start,rfl,rfl,?_,rfl,rfl⟩
  intro id
  have none : h.lessen id (dropped h.children [] [] [] id) = fun object => object := by
    funext object
    unfold lessen
    split <;> rfl
  simp [none]

section

variable (drops : Drops start refs todo gone h)

include drops

theorem owe (id : Nat) : Drops start (id :: refs) (id :: todo) gone h :=
  ⟨drops.stage.owe id,drops.size,drops.poolSize,by simpa only [dropped_owe] using drops.objects,
    drops.recycled,drops.freed⟩

theorem perm {todo' : List Nat} (same : todo.Perm todo') : Drops start refs todo' gone h :=
  ⟨drops.stage.perm same,drops.size,drops.poolSize,
    by simpa only [dropped,same.count_eq] using drops.objects,drops.recycled,drops.freed⟩

theorem origin (found : h.object? id = some object) (outside : start.poolSize ≤ id) :
    id ∉ gone ∧ ∃ before, start.object? id = some before ∧
      object = { before with count := before.count - dropped start.children refs todo gone id } := by
  rw [drops.objects id] at found
  split at found
  · cases found
  · next left =>
    obtain ⟨before,there,same⟩ := map_eq_some_iff.mp found
    exact ⟨left,before,there,by rw [← same,lessen_counted outside]⟩

end

variable (drops : Drops start refs (id :: todo) gone h)

include drops

theorem skip (uncounted : id < start.poolSize ∨ id ∈ gone ∨ start.object? id = none) :
    Drops start refs todo gone h := by
  refine ⟨?_,drops.size,drops.poolSize,?_,drops.recycled,drops.freed⟩
  · apply drops.stage.keep
    intro left n counts
    obtain ⟨outside,object,found⟩ := live_of_counted counts
    rcases uncounted with inside | member | dead
    · omega
    · exact absurd member left
    · cases found.symm.trans dead
  · intro x
    rw [drops.objects x,drops.stage.dropped_cons x]
    by_cases same : x = id
    · subst same
      rcases uncounted with inside | member | dead
      · simp [lessen_pool inside]
      · simp [member]
      · simp [dead]
    · simp [same]

theorem lower (outside : start.poolSize ≤ id) (found : h.object? id = some object) (shared : 1 < object.count) :
    Drops start refs todo gone (h.put id { object with count := object.count - 1 }) := by
  obtain ⟨left,before,there,rfl⟩ := drops.origin found outside
  have one := drops.stage.dropped_cons id
  simp only [if_true] at one shared
  refine ⟨?_,?_,drops.poolSize,?_,drops.recycled,drops.freed⟩
  · apply drops.stage.keep
    intro _ n counts
    rw [counted_eq there outside,some.injEq] at counts
    omega
  · simpa [Heap.put] using drops.size
  · intro x
    rw [object?_put (object_bound found)]
    by_cases same : x = id
    · subst same
      rw [Function.update_self,if_neg left,there,map_some,lessen_counted outside,one]
      simp only [Nat.sub_sub]
    · rw [Function.update_of_ne same,drops.objects x,drops.stage.dropped_cons x,if_neg same]
      rfl

theorem free (outside : start.poolSize ≤ id) (found : h.object? id = some object) (last : ¬ 1 < object.count) :
    Drops start refs (object.children ++ todo) (id :: gone) (h.release id).2 := by
  obtain ⟨left,before,there,rfl⟩ := drops.origin found outside
  have counted : h.poolSize ≤ id := drops.poolSize ▸ outside
  have live : h.isLive id = true := isLive_iff.mpr ⟨_,found⟩
  have frame := release_eq counted live
  have one := drops.stage.dropped_cons id
  have kids : start.children id = before.children := by simp [children,there]
  simp only [if_true] at one last
  rw [children_recount,← kids]
  refine ⟨?_,?_,?_,?_,?_,?_⟩
  · exact drops.stage.fall left (counted_eq there outside) (by omega)
  · simpa [frame] using drops.size
  · simpa [frame] using drops.poolSize
  · intro x
    rw [object?_release counted live,dropped_fall]
    by_cases same : x = id
    · subst same
      simp
    · rw [Function.update_of_ne same,drops.objects x,drops.stage.dropped_cons x,if_neg same]
      simp [same]
  · simp [frame,drops.recycled]
  · simp [frame,drops.freed]
    omega

end Drops

theorem decRefWithin_drops (depth : Nat) (enough : population h < depth)
    (drops : Drops start refs (id :: todo) gone h) :
    Drops start refs todo ((decRefWithin depth id h).1.reverse ++ gone) (decRefWithin depth id h).2 ∧
      population (decRefWithin depth id h).2 ≤ population h := by
  refine decRefWithin_worklist (I := fun todo done h => Drops start refs todo (done.reverse ++ gone) h)
    ?_ ?_ ?_ [] depth enough drops
  · intro id todo done h uncounted drops
    refine drops.skip (uncounted.imp (by simp [inPool,drops.poolSize]) fun absent => ?_)
    rw [drops.objects id] at absent
    split at absent
    · next member => exact .inl member
    · exact .inr (map_eq_none_iff.mp absent)
  · intro id todo done h object outside found shared drops
    exact drops.lower (drops.poolSize ▸ outside) found shared
  · intro id todo done h object outside found last drops
    rw [reverse_append]
    exact (drops.free (drops.poolSize ▸ outside) found last).perm
      ((reverse_perm object.children).symm.append_right todo)

theorem decRef_drops (drops : Drops start refs (id :: todo) gone h) :
    Drops start refs todo ((h.decRef id).1.reverse ++ gone) (h.decRef id).2 :=
  (decRefWithin_drops _ (Nat.lt_succ_of_le (population_le h)) drops).1

end Drops

def decRefs (h : Heap) (refs : List Nat) : Heap := refs.foldl (fun h id => (h.decRef id).2) h

theorem decRefs_append (h : Heap) (refs more : List Nat) :
    h.decRefs (refs ++ more) = (h.decRefs refs).decRefs more := foldl_append

section Drops

variable {start h h' : Heap} {refs refs' gone gone' : List Nat}

theorem Drops.each (ids : List Nat) (drops : Drops start refs ids gone h) :
    Drops start refs [] ((releaseEach (fun id h => h.decRef id) h ids).1.reverse ++ gone)
      (releaseEach (fun id h => h.decRef id) h ids).2 := by
  induction ids generalizing gone h with
  | nil => exact drops
  | cons id ids ih =>
    rw [releaseEach_cons,reverse_append,append_assoc]
    exact ih (decRef_drops drops)

theorem Drops.initial (h : Heap) (refs : List Nat) : Drops h refs refs [] h := by
  induction refs with
  | nil => exact .refl h
  | cons id refs ih => exact ih.owe id

theorem decRefs_drops (h : Heap) (refs : List Nat) : ∃ gone, Drops h refs [] gone (h.decRefs refs) := by
  rw [decRefs,← releaseEach_snd fun id h => h.decRef id]
  exact ⟨_,(Drops.initial h refs).each⟩

/-- When all references have been dropped, it does not matter to what is live and what it counts in
which order this was done; only the order in which freed cells are used again depends on it. -/
theorem Drops.alike (drops : Drops start refs [] gone h) (drops' : Drops start refs' [] gone' h')
    (same : refs.Perm refs') : (∀ id, h.object? id = h'.object? id) ∧ h.freed = h'.freed ∧
      h.recycled.Perm h'.recycled := by
  have gone_perm := drops.stage.gone_perm drops'.stage same
  refine ⟨?_,?_,?_⟩
  · intro id
    have alike : dropped start.children refs [] gone id = dropped start.children refs' [] gone' id := by
      simp only [dropped,count_due,same.count_eq,(gone_perm.flatMap_right start.children).count_eq]
    rw [drops.objects,drops'.objects,alike]
    simp only [gone_perm.mem_iff]
  · rw [drops.freed,drops'.freed,gone_perm.length_eq]
  · rw [drops.recycled,drops'.recycled]
    exact gone_perm.append_right _

end Drops

end Heap

namespace DeferredQueue

open Heap

variable {entries : List (Nat × Nat)}

theorem apply_eq (limit : Nat) (tidy : Tidy entries) (h : Heap) : Tidy (apply limit entries h).2.1 ∧
      references (apply limit entries h).2.1 = (references entries).drop limit ∧
      (apply limit entries h).2.2 = h.decRefs ((references entries).take limit) := by
  induction limit generalizing entries h with
  | zero => exact ⟨tidy,rfl,rfl⟩
  | succ limit ih =>
    cases entries with
    | nil => exact ⟨tidy,rfl,rfl⟩
    | cons entry entries =>
      obtain ⟨id,n⟩ := entry
      rw [references_rest (tidy.positive _ mem_cons_self)]
      exact ih tidy.rest (h.decRef id).2

theorem references_length (q : DeferredQueue) : (references q.entries).length = q.decrements := by
  unfold decrements
  induction q.entries with
  | nil => rfl
  | cons entry rest ih =>
    obtain ⟨id,n⟩ := entry
    simp [references_cons,ih]

theorem Tidy.eq_nil (tidy : Tidy entries) (none : references entries = []) : entries = [] := by
  cases entries with
  | nil => rfl
  | cons entry rest =>
    rw [references_rest (tidy.positive _ mem_cons_self)] at none
    cases none

theorem run_empty {q : DeferredQueue} (tidy : Tidy q.entries) (limit : Nat) (h : Heap) :
    (q.run limit h).2.1.entries = [] ↔ q.decrements ≤ limit := by
  obtain ⟨still,left,_⟩ := apply_eq limit tidy h
  rw [← references_length,← drop_eq_nil_iff,← left]
  exact ⟨congrArg references,still.eq_nil⟩

end DeferredQueue

/-- What a program does with references that it has put off, between allocations. -/
inductive Deferral where
  | release (id : Nat)
  | safePoint
deriving DecidableEq, Repr

namespace Deferral

open Heap DeferredQueue

def perform (m : Memory) : Deferral → Memory
  | release id => m.deferRelease id
  | safePoint => m.safePoint.2

def reference : Deferral → List Nat
  | release id => [id]
  | safePoint => []

/-- Of the references that have been given up, some have been dropped and the others are queued. -/
structure Postpones (start : Heap) (given : List Nat) (m : Memory) : Prop where
  tidy : Tidy m.deferred.entries
  split : ∃ done, m.heap = start.decRefs done ∧ (done ++ references m.deferred.entries).Perm given

variable {start : Heap} {given : List Nat} {m : Memory}

variable (postpones : Postpones start given m)

include postpones

theorem Postpones.run (limit : Nat) : Postpones start given { m with
      deferred := (m.deferred.run limit m.heap).2.1
      heap := (m.deferred.run limit m.heap).2.2 } := by
  obtain ⟨tidy,left,heap⟩ := apply_eq limit postpones.tidy m.heap
  obtain ⟨done,before,perm⟩ := postpones.split
  refine ⟨tidy,done ++ (references m.deferred.entries).take limit,?_,?_⟩
  · rw [decRefs_append,← before]
    exact heap
  · refine .trans (.of_eq ?_) perm
    rw [append_assoc]
    exact congrArg (done ++ ·) (left ▸ take_append_drop ..)

theorem Postpones.perform (step : Deferral) : Postpones start (given ++ step.reference) (step.perform m) := by
  cases step with
  | release id =>
    obtain ⟨done,before,perm⟩ := postpones.split
    refine ⟨postpones.tidy.defer id,done,before,?_⟩
    have queued := references_defer m.deferred id postpones.tidy
    exact (queued.append_left done).trans (perm_middle.trans
      ((perm.cons id).trans (perm_append_singleton id given).symm))
  | safePoint =>
    rw [reference,append_nil]
    exact postpones.run _

theorem Postpones.steps (steps : List Deferral) : Postpones start (given ++ steps.flatMap reference)
      (steps.foldl Deferral.perform m) := by
  induction steps generalizing given m with
  | nil => simpa using postpones
  | cons step steps ih =>
    rw [flatMap_cons,← append_assoc]
    exact ih (postpones.perform step)

theorem Postpones.flush : m.flushDeferred.2.deferred.entries = [] ∧
      ∃ done, m.flushDeferred.2.heap = start.decRefs done ∧ done.Perm given := by
  have empty : m.flushDeferred.2.deferred.entries = [] := (run_empty postpones.tidy _ m.heap).mpr le_rfl
  have flushed : Postpones start given m.flushDeferred.2 := postpones.run _
  obtain ⟨done,heap,perm⟩ := flushed.split
  rw [empty] at perm
  exact ⟨empty,done,heap,by simpa [references] using perm⟩

end Deferral

/-- References that are put off and dropped in batches, at whatever safe points, free the same cells and
leave the same counts as if each was dropped at once. -/
theorem Memory.deferring_frees_alike (h : Heap) (batch : Nat) (frozen : FrozenGroups)
    (weak : WeakTable) (steps : List Deferral) :
    let flushed := (steps.foldl Deferral.perform
      { heap := h, deferred := .withBatch batch, frozen, weak }).flushDeferred.2
    let atOnce := h.decRefs (steps.flatMap Deferral.reference)
    flushed.deferred.entries = [] ∧ (∀ id, flushed.heap.object? id = atOnce.object? id) ∧
      flushed.heap.freed = atOnce.freed ∧ flushed.heap.recycled.Perm atOnce.recycled := by
  intro flushed atOnce
  have start : Deferral.Postpones h []
      { heap := h, deferred := .withBatch batch, frozen, weak } :=
    ⟨⟨nodup_nil,by simp [DeferredQueue.withBatch]⟩,[],rfl,.refl _⟩
  obtain ⟨empty,done,heap,same⟩ := (start.steps steps).flush
  rw [nil_append] at same
  refine ⟨empty,?_⟩
  rw [heap]
  obtain ⟨_,late⟩ := h.decRefs_drops done
  obtain ⟨_,early⟩ := h.decRefs_drops (steps.flatMap Deferral.reference)
  exact late.alike early same

end StagedLisp
