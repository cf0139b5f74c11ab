import Mathlib.Data.List.Perm.Basic
import StagedLisp.Proofs.Heap.Operations

/-! The deferred queue as a list of references. A cell that is deferred adds one reference, wherever
its entry stands, and each step of a batch drops the first one. -/
namespace StagedLisp.DeferredQueue

open List Heap

def references (entries : List (Nat × Nat)) : List Nat :=
  entries.flatMap fun entry => List.replicate entry.2 entry.1

/-- There is one entry for a cell, and none without references. -/
structure Tidy (entries : List (Nat × Nat)) : Prop where
  distinct : (entries.map Prod.fst).Nodup
  positive : ∀ entry ∈ entries, 0 < entry.2

def bump (id : Nat) (entry : Nat × Nat) : Nat × Nat :=
  (entry.1,if entry.1 == id then entry.2 + 1 else entry.2)

theorem references_cons (id n : Nat) (rest : List (Nat × Nat)) :
    references ((id,n) :: rest) = List.replicate n id ++ references rest := rfl

variable {id : Nat} {entries : List (Nat × Nat)}

theorem map_bump_of_notMem (absent : id ∉ entries.map Prod.fst) : entries.map (bump id) = entries := by
  have kept : ∀ entry ∈ entries, bump id entry = entry := by
    intro entry member
    have other : entry.1 ≠ id := fun same => absent (same ▸ mem_map_of_mem member)
    simp [bump,other]
  rw [map_congr_left kept,map_id']

theorem references_map_bump (distinct : (entries.map Prod.fst).Nodup) (present : id ∈ entries.map Prod.fst) :
    (references (entries.map (bump id))).Perm (id :: references entries) := by
  induction entries with
  | nil => cases present
  | cons entry rest ih =>
    obtain ⟨cell,n⟩ := entry
    rw [map_cons,nodup_cons] at distinct
    rw [map_cons]
    by_cases same : cell = id
    · subst same
      rw [map_bump_of_notMem distinct.1]
      simp [bump,references_cons,replicate_succ]
    · have later : id ∈ rest.map Prod.fst := (mem_cons.mp present).resolve_left (Ne.symm same)
      have kept : bump id (cell,n) = (cell,n) := by simp [bump,same]
      rw [kept,references_cons,references_cons]
      exact ((ih distinct.2 later).append_left _).trans perm_middle

theorem any_iff (entries : List (Nat × Nat)) (id : Nat) :
    entries.any (·.1 == id) = true ↔ id ∈ entries.map Prod.fst := by
  simp [any_eq_true]

theorem references_defer (q : DeferredQueue) (id : Nat) (tidy : Tidy q.entries) :
    (references (q.defer id).entries).Perm (id :: references q.entries) := by
  unfold defer
  by_cases present : q.entries.any (·.1 == id) = true
  · rw [if_pos present]
    exact references_map_bump tidy.distinct ((any_iff _ _).mp present)
  · rw [if_neg present]
    simp [references]

theorem Tidy.defer {q : DeferredQueue} (tidy : Tidy q.entries) (id : Nat) : Tidy (q.defer id).entries := by
  unfold DeferredQueue.defer
  by_cases present : q.entries.any (·.1 == id) = true
  · rw [if_pos present]
    constructor
    · simpa [map_map,Function.comp_def] using tidy.distinct
    · intro entry member
      obtain ⟨before,old,rfl⟩ := mem_map.mp member
      have := tidy.positive before old
      dsimp only
      split <;> omega
  · rw [if_neg present]
    rw [any_iff] at present
    constructor
    · rw [map_append,map_singleton]
      exact concat_eq_append ▸ List.Nodup.concat present tidy.distinct
    · intro entry member
      rcases mem_append.mp member with old | new
      · exact tidy.positive entry old
      · rw [mem_singleton.mp new]
        exact Nat.one_pos

def rest (id n : Nat) (entries : List (Nat × Nat)) : List (Nat × Nat) :=
  if n ≤ 1 then entries else (id,n - 1) :: entries

theorem Tidy.rest {n : Nat} (tidy : Tidy ((id,n) :: entries)) : Tidy (rest id n entries) := by
  have later : Tidy entries := ⟨(nodup_cons.mp tidy.distinct).2,
    fun entry member => tidy.positive entry (.tail _ member)⟩
  unfold DeferredQueue.rest
  split
  · exact later
  · refine ⟨tidy.distinct,?_⟩
    intro entry member
    rcases mem_cons.mp member with rfl | member
    · dsimp only
      omega
    · exact later.positive entry member

theorem references_rest {n : Nat} (positive : 0 < n) :
    references ((id,n) :: entries) = id :: references (rest id n entries) := by
  obtain ⟨n,rfl⟩ := Nat.exists_eq_add_one_of_ne_zero positive.ne'
  unfold rest
  split
  case isTrue last =>
    obtain rfl : n = 0 := by omega
    rfl
  case isFalse => rfl

theorem apply_dropped (limit : Nat) {h : Heap} {refs : List Nat} (tidy : Tidy entries)
    (balanced : Balanced h (references entries ++ refs)) :
    Tidy (apply limit entries h).2.1 ∧
      Dropped none (references (apply limit entries h).2.1 ++ refs) h (apply limit entries h).2.2 := by
  induction limit generalizing entries h with
  | zero => exact ⟨tidy,balanced.dropped⟩
  | succ limit ih =>
    cases entries with
    | nil => exact ⟨tidy,balanced.dropped⟩
    | cons entry entries =>
      obtain ⟨id,n⟩ := entry
      rw [references_rest (tidy.positive _ mem_cons_self)] at balanced
      have first := decRef_dropped balanced.regular balanced.accounts
      obtain ⟨still,later⟩ := ih tidy.rest first.balanced
      exact ⟨still,first.trans later⟩

end StagedLisp.DeferredQueue
