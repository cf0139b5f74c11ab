import Mathlib.Data.List.Basic
import Mathlib.Data.List.Count
import Mathlib.Logic.Function.Basic
import StagedLisp.Proofs.Heap.Cells

/-! Accounts of references. The cells of a heap are accounted for by a list of references from outside
if each count is the number of references to the cell from outside and from other cells. A change to
one cell keeps the accounts if, for every cell, what it gives to the outside it takes from the inside:
`Accounted.change` is the only place where this is worked out. -/
namespace StagedLisp.Heap

open List Function

def kids (o : Option Object) : List Nat := (o.map Object.children).getD []

def weight (o : Option Object) : Nat := (o.map Object.count).getD 0

@[simp] theorem kids_none : kids none = [] := rfl

@[simp] theorem kids_some (object : Object) : kids (some object) = object.children := rfl

@[simp] theorem weight_none : weight none = 0 := rfl

@[simp] theorem weight_some (object : Object) : weight (some object) = object.count := rfl

@[simp] theorem children_recount (object : Object) (count : Nat) :
    ({ object with count } : Object).children = object.children := rfl

theorem count_reference (refs : List Nat) (id x : Nat) :
    (id :: refs).count x = refs.count x + if x = id then 1 else 0 := by
  rw [count_cons]
  simp only [beq_iff_eq,@eq_comm _ id]

def heldBy (cells : Nat → Option Object) (n : Nat) : List Nat :=
  (List.range n).flatMap fun id => kids (cells id)

/-- The references out of the cells of a heap, one for each child slot. -/
def held (h : Heap) : List Nat := (List.range h.cells.size).flatMap h.children

theorem heldBy_succ (cells : Nat → Option Object) (n : Nat) :
    heldBy cells (n + 1) = heldBy cells n ++ kids (cells n) := by
  simp [heldBy,range_succ]

theorem heldBy_congr {cells cells' : Nat → Option Object} {n : Nat}
    (same : ∀ id < n, cells id = cells' id) : heldBy cells n = heldBy cells' n := by
  apply flatMap_congr
  intro id member
  rw [same id (mem_range.mp member)]

theorem count_heldBy_update (cells : Nat → Option Object) {n id : Nat} (inside : id < n)
    (new : Option Object) (x : Nat) :
    (heldBy (Function.update cells id new) n).count x + (kids (cells id)).count x =
      (heldBy cells n).count x + (kids new).count x := by
  induction n with
  | zero => exact absurd inside (Nat.not_lt_zero _)
  | succ n ih =>
    rw [heldBy_succ,heldBy_succ,count_append,count_append]
    by_cases last : id = n
    · subst last
      have before : heldBy (Function.update cells id new) id = heldBy cells id :=
        heldBy_congr fun other less => update_of_ne (Nat.ne_of_lt less) _ _
      rw [before,update_self]
      omega
    · have := ih (by omega)
      rw [update_of_ne (Ne.symm last)]
      omega

/-- The counts of the first `n` cells are those of the references from outside and from one another,
and there is a cell for every reference. Cells of the pool are not counted. -/
structure Accounted (pool n : Nat) (cells : Nat → Option Object) (refs : List Nat) : Prop where
  count : ∀ id object, cells id = some object → pool ≤ id → object.count = refs.count id + (heldBy cells n).count id
  live : ∀ id ∈ refs ++ heldBy cells n, (cells id).isSome = true

namespace Accounted

variable {pool n : Nat} {cells : Nat → Option Object} {refs refs' : List Nat} {id : Nat}

variable (a : Accounted pool n cells refs)

include a

theorem total_eq_zero (absent : cells id = none) : refs.count id + (heldBy cells n).count id = 0 := by
  rw [← count_append,count_eq_zero]
  intro member
  have := a.live id member
  rw [absent] at this
  cases this

theorem weight_eq (counted : pool ≤ id) : weight (cells id) = refs.count id + (heldBy cells n).count id := by
  cases found : cells id with
  | none => exact (a.total_eq_zero found).symm
  | some object => exact a.count id object found counted

theorem live_of_pos (referred : 0 < refs.count id + (heldBy cells n).count id) : (cells id).isSome = true := by
  rw [← count_append,count_pos_iff] at referred
  exact a.live id referred

/-- A change to one cell that takes as many references to each cell from outside as it gives to the
inside, the count of the changed cell included. A cell may disappear if it is counted. -/
theorem change (inside : id < n) (new : Option Object) (remains : new.isSome = true ∨ pool ≤ id)
    (conserved : ∀ x, refs'.count x + (kids new).count x + (if x = id then weight (cells id) else 0) =
      refs.count x + (kids (cells id)).count x + (if x = id then weight new else 0)) :
    Accounted pool n (Function.update cells id new) refs' := by
  have moved := count_heldBy_update cells inside new
  have others {x : Nat} (other : x ≠ id) : refs'.count x + (heldBy (Function.update cells id new) n).count x =
        refs.count x + (heldBy cells n).count x := by
    have := conserved x
    have := moved x
    simp only [if_neg other] at *
    omega
  have here (counted : pool ≤ id) :
      refs'.count id + (heldBy (Function.update cells id new) n).count id = weight new := by
    have := conserved id
    have := moved id
    have := a.weight_eq counted
    simp only [if_pos] at *
    omega
  constructor
  · intro x object found counted
    by_cases same : x = id
    · subst same
      rw [update_self] at found
      rw [here counted,found]
      rfl
    · rw [update_of_ne same] at found
      rw [others same]
      exact a.count x object found counted
  · intro x member
    rw [← count_pos_iff,count_append] at member
    by_cases same : x = id
    · subst same
      rw [update_self]
      rcases remains with some | counted
      · exact some
      · rw [here counted] at member
        cases new with
        | none => cases member
        | some object => rfl
    · rw [others same] at member
      rw [update_of_ne same]
      exact a.live_of_pos member

theorem reorder (same : ∀ x, pool ≤ x → refs'.count x = refs.count x)
    (live : ∀ x ∈ refs', (cells x).isSome = true) : Accounted pool n cells refs' := by
  constructor
  · intro id object found counted
    rw [same id counted]
    exact a.count id object found counted
  · intro id member
    rcases mem_append.mp member with outside | inside
    · exact live id outside
    · exact a.live id (mem_append_right _ inside)

theorem perm (same : refs.Perm refs') : Accounted pool n cells refs' :=
  a.reorder (fun x _ => same.symm.count_eq x) fun x member => a.live x (mem_append_left _ (same.mem_iff.mpr member))

theorem widen (absent : cells n = none) : Accounted pool (n + 1) cells refs := by
  have same : heldBy cells (n + 1) = heldBy cells n := by
    rw [heldBy_succ,absent]
    exact append_nil _
  exact ⟨by rw [same]; exact a.count,by rw [same]; exact a.live⟩

end Accounted

end StagedLisp.Heap
