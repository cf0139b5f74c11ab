import Mathlib.Data.Finset.Card
import Mathlib.Data.Finset.Range
import StagedLisp.Heap.Release
import StagedLisp.Proofs.Heap.Accounts

/-! Dropping references keeps the accounts. Dropping the last reference to a cell frees it, and turns
its references to its children into references to be dropped next; the nesting of releases is bounded
by the number of live cells. All of this may happen while one cell is left out of the accounts, because
it is about to be overwritten. -/
namespace StagedLisp.Heap

open List Function

def seen (h : Heap) (hole : Option Nat) (id : Nat) : Option Object :=
  if hole = some id then none else h.object? id

/-- The references from outside account for the cells of the heap. -/
def Accounts (h : Heap) (hole : Option Nat) (refs : List Nat) : Prop :=
  Accounted h.poolSize h.cells.size (h.seen hole) refs

/-- The heap keeps its books: which cells of the pool are in use, and which other cells are free. -/
structure Regular (h : Heap) : Prop where
  poolWithin : h.poolSize ≤ h.cells.size
  poolUsed : ∀ id, id < h.poolSize → (h.isLive id = true ↔ id < h.poolUsed)
  poolInts : ∀ id object, h.object? id = some object → id < h.poolSize → object.isPair = false
  positive : ∀ id object, h.object? id = some object → h.poolSize ≤ id → 0 < object.count
  recycled : ∀ id ∈ h.recycled, h.poolSize ≤ id ∧ id < h.cells.size ∧ h.object? id = none
  distinct : h.recycled.Nodup

structure Shrinks (h h' : Heap) : Prop where
  size : h'.cells.size = h.cells.size
  poolSize : h'.poolSize = h.poolSize
  poolUsed : h'.poolUsed = h.poolUsed
  pending : h'.pending = h.pending
  live : ∀ id, h'.isLive id = true → h.isLive id = true

structure Dropped (hole : Option Nat) (refs : List Nat) (h h' : Heap) : Prop where
  regular : Regular h'
  accounts : Accounts h' hole refs
  shrinks : Shrinks h h'
  kept : ∀ id, hole = some id → h'.object? id = h.object? id

theorem Shrinks.refl (h : Heap) : Shrinks h h := ⟨rfl,rfl,rfl,rfl,fun _ live => live⟩

theorem Shrinks.trans {a b c : Heap} (first : Shrinks a b) (second : Shrinks b c) : Shrinks a c :=
  ⟨second.size.trans first.size,second.poolSize.trans first.poolSize,
    second.poolUsed.trans first.poolUsed,second.pending.trans first.pending,
    fun id live => first.live id (second.live id live)⟩

variable {hole : Option Nat} {refs : List Nat} {h : Heap}

theorem Dropped.trans {a b c : Heap} {refs' : List Nat} (first : Dropped hole refs a b)
    (second : Dropped hole refs' b c) : Dropped hole refs' a c :=
  ⟨second.regular,second.accounts,first.shrinks.trans second.shrinks,
    fun id out => (second.kept id out).trans (first.kept id out)⟩

def population (h : Heap) : Nat := ((Finset.range h.cells.size).filter fun id => h.isLive id).card

theorem Shrinks.population_le {h' : Heap} (s : Shrinks h h') : population h' ≤ population h := by
  unfold population
  rw [s.size]
  apply Finset.card_le_card
  apply Finset.monotone_filter_right
  exact fun id _ live => s.live id live

theorem population_le (h : Heap) : population h ≤ h.cells.size :=
  (Finset.card_filter_le _ _).trans (Finset.card_range _).le

section Objects

variable {h h' : Heap} {id : Nat} {object : Object} {hole : Option Nat} {refs : List Nat}

@[simp] theorem seen_none : h.seen none = h.object? := by
  funext id
  simp [seen]

theorem object?_put (inside : id < h.cells.size) :
    (h.put id object).object? = Function.update h.object? id (some object) := by
  funext x
  rw [object?_eq,put]
  by_cases same : x = id
  · subst same
    simp [inside]
  · rw [update_of_ne same,object?_eq,Array.getElem?_setIfInBounds_ne (Ne.symm same)]

theorem inPool_eq_false : h.inPool id = false ↔ h.poolSize ≤ id := by
  simp [inPool]

theorem release_eq (counted : h.poolSize ≤ id) (live : h.isLive id = true) : (h.release id).2 = { h with
      cells := h.cells.setIfInBounds id none
      recycled := id :: h.recycled
      freed := h.freed + 1 } := by
  simp [release,inPool_eq_false.mpr counted,live]

theorem object?_clear (h : Heap) (id : Nat) : ({ h with cells := h.cells.setIfInBounds id none } : Heap).object? =
      Function.update h.object? id none := by
  funext x
  rw [object?_eq]
  by_cases same : x = id
  · subst same
    by_cases inside : x < h.cells.size <;> simp [inside]
  · rw [update_of_ne same,object?_eq,Array.getElem?_setIfInBounds_ne (Ne.symm same)]

theorem object?_release (counted : h.poolSize ≤ id) (live : h.isLive id = true) :
    (h.release id).2.object? = Function.update h.object? id none := by
  rw [release_eq counted live]
  exact object?_clear h id

variable {new : Option Object} {refs' : List Nat}

theorem seen_update (changed : h'.object? = Function.update h.object? id new)
    (apart : hole ≠ some id) : h'.seen hole = Function.update (h.seen hole) id new := by
  funext x
  rw [seen,changed]
  by_cases same : x = id
  · subst same
    rw [if_neg apart,update_self,update_self]
  · rw [update_of_ne same,update_of_ne same,seen]

theorem seen_of_ne (apart : hole ≠ some id) : h.seen hole id = h.object? id := if_neg apart

theorem Accounts.live (accounts : Accounts h hole refs) (member : id ∈ refs) :
    hole ≠ some id ∧ ∃ object, h.object? id = some object := by
  have live := Accounted.live accounts id (mem_append_left _ member)
  have apart : hole ≠ some id := by
    intro out
    rw [seen,if_pos out] at live
    cases live
  rw [seen_of_ne apart] at live
  exact ⟨apart,Option.isSome_iff_exists.mp live⟩

theorem isLive_of_update (changed : h'.object? = Function.update h.object? id new) {x : Nat}
    (other : x ≠ id) : h'.isLive x = h.isLive x := by
  rw [isLive,changed,update_of_ne other,isLive]

theorem Accounts.change (accounts : Accounts h hole refs) (changed : h'.object? = Function.update h.object? id new)
    (size : h'.cells.size = h.cells.size) (poolSize : h'.poolSize = h.poolSize)
    (inside : id < h.cells.size) (apart : hole ≠ some id)
    (remains : new.isSome = true ∨ h.poolSize ≤ id)
    (conserved : ∀ x, refs'.count x + (kids new).count x + (if x = id then weight (h.object? id) else 0) =
      refs.count x + (kids (h.object? id)).count x + (if x = id then weight new else 0)) :
    Accounts h' hole refs' := by
  rw [Accounts,size,poolSize,seen_update changed apart]
  apply Accounted.change accounts inside new remains
  rw [seen_of_ne apart]
  exact conserved

section

variable (regular : Regular h)

include regular

theorem Regular.stored (changed : h'.object? = Function.update h.object? id (some object))
    (size : h.cells.size ≤ h'.cells.size) (poolSize : h'.poolSize = h.poolSize)
    (poolUsed : h'.poolUsed = h.poolUsed) (recycled : h'.recycled.Sublist h.recycled)
    (taken : id ∉ h'.recycled) (positive : h.poolSize ≤ id → 0 < object.count)
    (pooled : id < h.poolSize → h.isLive id = true ∧ object.isPair = false) : Regular h' := by
  have others {x : Nat} (other : x ≠ id) : h'.object? x = h.object? x := by
    rw [changed,update_of_ne other]
  have here : h'.object? id = some object := by rw [changed,update_self]
  constructor
  · rw [poolSize]
    exact regular.poolWithin.trans size
  · intro x inPool
    rw [poolSize] at inPool
    rw [poolUsed,← regular.poolUsed x inPool]
    by_cases same : x = id
    · subst same
      exact iff_of_true (isLive_iff.mpr ⟨object,here⟩) (pooled inPool).1
    · rw [isLive_of_update changed same]
  · intro x found at' inPool
    rw [poolSize] at inPool
    by_cases same : x = id
    · subst same
      rw [here,Option.some.injEq] at at'
      exact at' ▸ (pooled inPool).2
    · rw [others same] at at'
      exact regular.poolInts x found at' inPool
  · intro x found at' counted
    rw [poolSize] at counted
    by_cases same : x = id
    · subst same
      rw [here,Option.some.injEq] at at'
      exact at' ▸ positive counted
    · rw [others same] at at'
      exact regular.positive x found at' counted
  · intro x member
    obtain ⟨counted,inside,free⟩ := regular.recycled x (recycled.subset member)
    refine ⟨poolSize ▸ counted,inside.trans_le size,?_⟩
    rw [others,free]
    rintro rfl
    exact taken member
  · exact regular.distinct.sublist recycled

theorem Regular.not_recycled (found : h.object? id = some object) : id ∉ h.recycled := by
  intro member
  have := (regular.recycled id member).2.2
  rw [found] at this
  cases this

theorem Regular.put (found : h.object? id = some object) {new : Object}
    (positive : h.poolSize ≤ id → 0 < new.count) (pooled : id < h.poolSize → new.isPair = false) :
    Regular (h.put id new) := by
  apply regular.stored (object?_put (object_bound found))
  · simp [Heap.put]
  · rfl
  · rfl
  · exact List.Sublist.refl _
  · exact regular.not_recycled found
  · exact positive
  · exact fun inPool => ⟨isLive_iff.mpr ⟨object,found⟩,pooled inPool⟩

omit regular in
theorem shrinks_put (found : h.object? id = some object) (new : Object) : Shrinks h (h.put id new) := by
  refine ⟨by simp [Heap.put],rfl,rfl,rfl,?_⟩
  intro x live
  by_cases same : x = id
  · exact same ▸ isLive_iff.mpr ⟨object,found⟩
  · rwa [isLive_of_update (object?_put (object_bound found)) same] at live

omit regular in
theorem kept_update (changed : h'.object? = Function.update h.object? id new)
    (apart : hole ≠ some id) : ∀ x, hole = some x → h'.object? x = h.object? x := by
  intro x out
  rw [changed,update_of_ne]
  rintro rfl
  exact apart out

theorem put_dropped (accounts : Accounts h hole (id :: refs)) (found : h.object? id = some object)
    (shared : 1 < object.count) :
    Dropped hole refs h (h.put id { object with count := object.count - 1 }) := by
  have inside := object_bound found
  have apart := (accounts.live mem_cons_self).1
  refine ⟨?_,?_,shrinks_put found _,kept_update (object?_put inside) apart⟩
  · apply regular.put found
    · exact fun _ => Nat.sub_pos_of_lt shared
    · exact regular.poolInts id object found
  · apply accounts.change (object?_put inside) (by simp [Heap.put]) rfl inside apart (.inl rfl)
    intro x
    rw [found,count_reference]
    simp only [kids_some,weight_some,children_recount]
    split <;> omega

theorem Regular.release (counted : h.poolSize ≤ id) (found : h.object? id = some object) :
    Regular (h.release id).2 := by
  have live : h.isLive id = true := isLive_iff.mpr ⟨object,found⟩
  have changed := object?_release counted live
  have frame := release_eq counted live
  have remains {x : Nat} {o : Object} (at' : (h.release id).2.object? x = some o) : h.object? x = some o := by
    by_cases same : x = id
    · subst same
      rw [changed,update_self] at at'
      cases at'
    · rwa [changed,update_of_ne same] at at'
  constructor
  · rw [frame]
    simpa using regular.poolWithin
  · intro x inPool
    rw [frame] at inPool
    have other : x ≠ id := (inPool.trans_le counted).ne
    rw [isLive_of_update changed other,frame]
    exact regular.poolUsed x inPool
  · intro x o at' inPool
    rw [frame] at inPool
    exact regular.poolInts x o (remains at') inPool
  · intro x o at' counted
    rw [frame] at counted
    exact regular.positive x o (remains at') counted
  · intro x member
    rw [changed]
    rw [frame] at member ⊢
    simp only [Array.size_setIfInBounds]
    rcases mem_cons.mp member with rfl | before
    · exact ⟨counted,object_bound found,update_self _ _ _⟩
    · obtain ⟨counted,inside,free⟩ := regular.recycled x before
      refine ⟨counted,inside,?_⟩
      rw [update_apply,free,ite_self]
  · rw [frame]
    exact nodup_cons.mpr ⟨regular.not_recycled found,regular.distinct⟩

theorem release_dropped (accounts : Accounts h hole (id :: refs)) (counted : h.poolSize ≤ id)
    (found : h.object? id = some object) (last : object.count ≤ 1) :
    Dropped hole (object.children ++ refs) h (h.release id).2 := by
  have inside := object_bound found
  have live : h.isLive id = true := isLive_iff.mpr ⟨object,found⟩
  have apart := (accounts.live mem_cons_self).1
  have changed := object?_release counted live
  have one : object.count = 1 := last.antisymm (regular.positive id object found counted)
  have frame := release_eq counted live
  refine ⟨regular.release counted found,?_,?_,kept_update changed apart⟩
  · apply accounts.change changed (by simp [frame]) (by rw [frame]) inside apart (.inr counted)
    intro x
    rw [found,count_reference]
    simp only [kids_some,kids_none,weight_some,weight_none,one,count_append,count_nil]
    split <;> omega
  · refine ⟨by simp [frame],by rw [frame],by rw [frame],by rw [frame],?_⟩
    intro x alive
    by_cases same : x = id
    · exact same ▸ live
    · rwa [isLive_of_update changed same] at alive

end

theorem Accounts.pool_drop (accounts : Accounts h hole (id :: refs)) (inPool : id < h.poolSize) :
    Accounts h hole refs := by
  apply Accounted.reorder accounts
  · intro x counted
    rw [count_cons_of_ne]
    exact (inPool.trans_le counted).ne
  · exact fun x member => Accounted.live accounts x (by simp [member])

theorem Accounts.perm (accounts : Accounts h hole refs) (same : refs.Perm refs') : Accounts h hole refs' :=
  Accounted.perm accounts same

theorem population_release (counted : h.poolSize ≤ id) (live : h.isLive id = true) :
    population (h.release id).2 < population h := by
  have changed := object?_release counted live
  have frame : (h.release id).2.cells.size = h.cells.size := by simp [release_eq counted live]
  unfold population
  rw [frame]
  apply Finset.card_lt_card
  refine Finset.ssubset_iff_of_subset ?_ |>.mpr ⟨id,?_,?_⟩
  · apply Finset.monotone_filter_right
    intro x _ alive
    by_cases same : x = id
    · exact same ▸ live
    · rwa [isLive_of_update changed same] at alive
  · exact Finset.mem_filter.mpr ⟨Finset.mem_range.mpr (isLive_bound live),live⟩
  · simp [isLive,changed]

end Objects

section

variable (action : Nat → Heap → List Nat × Heap)

include action

theorem releaseEach_snd (h : Heap) (ids : List Nat) :
    (releaseEach action h ids).2 = ids.foldl (fun h id => (action id h).2) h := by
  unfold releaseEach
  generalize ([] : List Nat) = released
  induction ids generalizing h released with
  | nil => rfl
  | cons id ids ih => exact ih _ _

theorem foldl_released (released : List Nat) (h : Heap) (ids : List Nat) : (ids.foldl (fun (released,h) id =>
      let (more,h) := action id h
      (released ++ more,h)) (released,h)).1 = released ++ (releaseEach action h ids).1 := by
  induction ids generalizing released h with
  | nil => exact (append_nil released).symm
  | cons id ids ih =>
    have after := ih (released ++ (action id h).1) (action id h).2
    have alone := ih ([] ++ (action id h).1) (action id h).2
    rw [append_assoc] at after
    exact after.trans (congrArg (released ++ ·) alone.symm)

theorem releaseEach_cons (h : Heap) (id : Nat) (ids : List Nat) : releaseEach action h (id :: ids) =
      ((action id h).1 ++ (releaseEach action (action id h).2 ids).1,
        (releaseEach action (action id h).2 ids).2) := by
  ext1
  · exact foldl_released action (action id h).1 (action id h).2 ids
  · rw [releaseEach_snd,releaseEach_snd]
    rfl

end

section Worklist

variable {I : List Nat → List Nat → Heap → Prop}
  (skip : ∀ id todo done h, h.inPool id = true ∨ h.object? id = none → I (id :: todo) done h → I todo done h)
  (lower : ∀ id todo done h object, h.poolSize ≤ id → h.object? id = some object →
    1 < object.count → I (id :: todo) done h →
    I todo done (h.put id { object with count := object.count - 1 }))
  (free : ∀ id todo done h object, h.poolSize ≤ id → h.object? id = some object →
    ¬ 1 < object.count → I (id :: todo) done h →
    I (object.children.reverse ++ todo) (done ++ [id]) (h.release id).2)

include skip lower free

/-- Dropping a reference does what working off a list of references does: the last one to a cell frees
it and puts those of the cell on the list. The depth has to allow for all live cells. -/
theorem decRefWithin_worklist (done : List Nat) (depth : Nat) {id : Nat} {todo : List Nat}
    (enough : population h < depth) (inv : I (id :: todo) done h) :
    I todo (done ++ (decRefWithin depth id h).1) (decRefWithin depth id h).2 ∧
      population (decRefWithin depth id h).2 ≤ population h := by
  induction depth generalizing id todo done h with
  | zero => exact absurd enough (Nat.not_lt_zero _)
  | succ depth ih =>
    rw [decRefWithin]
    by_cases inside : h.inPool id = true
    · simpa [if_pos inside] using skip id todo done h (.inl inside) inv
    · have outside : h.poolSize ≤ id := inPool_eq_false.mp (Bool.not_eq_true _ ▸ inside)
      rw [if_neg inside]
      cases found : h.object? id with
      | none => simpa using skip id todo done h (.inr found) inv
      | some object =>
        dsimp only
        by_cases shared : 1 < object.count
        · have lowered := lower id todo done h object outside found shared inv
          simpa [if_pos shared,lowered] using (shrinks_put found _).population_le
        · have fewer := population_release outside (isLive_iff.mpr ⟨object,found⟩)
          have freed := free id todo done h object outside found shared inv
          -- One cell fewer is live, so a smaller depth is enough for the children.
          have each (ids done : List Nat) (h : Heap) (room : population h < depth) (inv : I (ids ++ todo) done h) :
              I todo (done ++ (releaseEach (decRefWithin depth) h ids).1)
                  (releaseEach (decRefWithin depth) h ids).2 ∧
                population (releaseEach (decRefWithin depth) h ids).2 ≤ population h := by
            induction ids generalizing done h with
            | nil => simpa [releaseEach] using inv
            | cons id ids rest =>
              obtain ⟨first,less⟩ := ih done room inv
              obtain ⟨last,least⟩ := rest _ _ (less.trans_lt room) first
              rw [releaseEach_cons,← append_assoc]
              exact ⟨last,least.trans less⟩
          obtain ⟨last,least⟩ := each _ _ _ (by omega) freed
          rw [if_neg shared]
          exact ⟨by simpa using last,by dsimp only; omega⟩

theorem decRef_worklist {id : Nat} (todo : List Nat) (inv : I (id :: todo) [] h) :
    I todo (h.decRef id).1 (h.decRef id).2 :=
  (decRefWithin_worklist skip lower free [] _ (Nat.lt_succ_of_le (population_le h)) inv).1

end Worklist

theorem decRef_dropped {id : Nat} (regular : Regular h) (accounts : Accounts h hole (id :: refs)) :
    Dropped hole refs h (h.decRef id).2 := by
  refine decRef_worklist (I := fun todo _ h' => Dropped hole todo h h') ?_ ?_ ?_ refs
    ⟨regular,accounts,.refl h,fun _ _ => rfl⟩
  · intro id todo _ h' uncounted before
    obtain ⟨object,found⟩ := (before.accounts.live mem_cons_self).2
    have inside : id < h'.poolSize := by simpa [inPool,found] using uncounted
    exact before.trans ⟨before.regular,before.accounts.pool_drop inside,.refl h',fun _ _ => rfl⟩
  · intro id todo _ h' object outside found shared before
    exact before.trans (put_dropped before.regular before.accounts found shared)
  · intro id todo _ h' object outside found last before
    have freed := release_dropped before.regular before.accounts outside found (le_of_not_gt last)
    exact before.trans ⟨freed.regular,freed.accounts.perm ((reverse_perm _).symm.append_right _),
      freed.shrinks,freed.kept⟩

theorem decRefs_dropped (ids : List Nat) (regular : Regular h) (accounts : Accounts h hole (ids ++ refs)) :
    Dropped hole refs h (releaseEach (fun id h => h.decRef id) h ids).2 := by
  rw [releaseEach_snd]
  induction ids generalizing h with
  | nil => exact ⟨regular,accounts,.refl h,fun _ _ => rfl⟩
  | cons id ids ih =>
    have first := decRef_dropped regular accounts
    exact first.trans (ih first.regular first.accounts)

end StagedLisp.Heap
