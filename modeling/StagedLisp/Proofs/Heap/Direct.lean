import StagedLisp.Proofs.Heap.Confluence
import StagedLisp.Proofs.Heap.Weak

/-! The three ways to free a cell at once. Where nothing else refers to the cell, freeing it and then
dropping its references to its children does what dropping the last reference does, though in another
order; and where this holds of all that is reached from it, so does freeing without a look at the
counts. -/
namespace StagedLisp.Heap

variable {h start : Heap} {id root : Nat} {object : Object} {refs todo gone : List Nat}

theorem release_live (outside : h.poolSize ≤ id) (found : h.object? id = some object) :
    h.release id = (true,(h.release id).2) := by
  simp [release,inPool_eq_false.mpr outside,isLive_iff.mpr ⟨object,found⟩]

/-- Freeing the cell first and dropping what it held afterwards drops one reference to it. -/
theorem freeUnique_drops (outside : h.poolSize ≤ id) (found : h.object? id = some object)
    (last : ¬ 1 < object.count) :
    Drops h [id] [] (h.freeUnique id).1.reverse (h.freeUnique id).2 := by
  have freed := (Drops.initial h [id]).free outside found last
  rw [List.append_nil] at freed
  have kids : h.children id = object.children := by simp [children,found]
  rw [freeUnique,release_live outside found,kids]
  simpa using freed.each

section Tree

variable (ints : ∀ x object, start.object? x = some object → x < start.poolSize → object.isPair = false)
  (single : ∀ x, start.Reaches root x → start.poolSize ≤ x → start.count? x = some 1)

include ints single

/-- If nothing that is reached has more than one reference, none is found to be shared on the way, and
the counts make no difference. -/
theorem freeTreeWithin_eq (depth depth' : Nat) (drops : Drops start refs (id :: todo) gone h)
    (reached : start.isLive id = true → start.Reaches root id) (room : population h < depth)
    (room' : population h < depth') : freeTreeWithin depth id h = decRefWithin depth' id h := by
  induction depth generalizing depth' id todo gone h with
  | zero => omega
  | succ depth ih =>
    obtain ⟨depth',rfl⟩ : ∃ less, depth' = less + 1 := ⟨depth' - 1,by omega⟩
    rw [freeTreeWithin,decRefWithin]
    cases found : h.object? id with
    | none => simp
    | some object =>
      by_cases inside : id < start.poolSize
      · -- A cell of the pool is an integer, so there is nothing below it.
        have inPool : h.inPool id = true := by simpa [inPool,drops.poolSize] using inside
        have kept := drops.objects id
        rw [found,lessen_pool inside] at kept
        split at kept
        · cases kept
        · have none := children_of_int (ints id object (by simpa using kept.symm) inside)
          simp [inPool,release,none,releaseEach]
      · have outside : start.poolSize ≤ id := le_of_not_gt inside
        have counted : h.poolSize ≤ id := drops.poolSize ▸ outside
        obtain ⟨_,before,there,same⟩ := drops.origin found outside
        have way := reached (isLive_iff.mpr ⟨before,there⟩)
        have one : before.count = 1 := by simpa [count?,there] using single id way outside
        have last : ¬ 1 < object.count := by
          rw [same]
          dsimp only
          omega
        have below (child : Nat) (member : child ∈ object.children)
            (live : start.isLive child = true) : start.Reaches root child := by
          refine way.tail ⟨?_,live⟩
          rw [same] at member
          simpa [children,there] using member
        have fewer := population_release counted (isLive_iff.mpr ⟨object,found⟩)
        have each (ids gone : List Nat) (h : Heap) (room : population h < depth)
            (room' : population h < depth') (among : ids ⊆ object.children)
            (drops : Drops start refs (ids ++ todo) gone h) :
            releaseEach (freeTreeWithin depth) h ids = releaseEach (decRefWithin depth') h ids := by
          induction ids generalizing gone h with
          | nil => rfl
          | cons child ids rest =>
            obtain ⟨member,among⟩ := List.cons_subset.mp among
            have first := ih depth' drops (below child member) room room'
            obtain ⟨after,less⟩ := decRefWithin_drops depth' room' drops
            rw [releaseEach_cons,releaseEach_cons,first,rest _ _ (by omega) (by omega) among after]
        have freed := (drops.free outside found last).perm
          ((List.reverse_perm object.children).symm.append_right todo)
        have rest := each _ _ _ (by omega) (by omega) (List.reverse_perm _).subset freed
        rw [release_live counted found,inPool_eq_false.mpr counted]
        simp [last,rest]

end Tree

/-- Where only one reference to a cell is left, dropping it, and freeing the cell and dropping what it
held, free the same cells and leave the same counts. If this holds of all cells that are reached from
it, freeing them all whatever they count does exactly the same, in the same order. The counts of cells
that are not reached need not be right. -/
theorem direct_releases_agree (outside : h.poolSize ≤ id) (unique : h.count? id = some 1) :
    (h.freeUnique id).1.Perm (h.decRef id).1 ∧
    (∀ x, x ∈ (h.decRef id).1 ↔ h.isLive x = true ∧ (h.decRef id).2.isLive x = false) ∧
    (∀ x, (h.freeUnique id).2.object? x = (h.decRef id).2.object? x) ∧
    ((∀ x object, h.object? x = some object → x < h.poolSize → object.isPair = false) →
      (∀ x, h.Reaches id x → h.poolSize ≤ x → h.count? x = some 1) →
      h.freeTree id = h.decRef id) := by
  obtain ⟨object,found,one⟩ := Option.map_eq_some_iff.mp unique
  have drops := decRef_drops (Drops.initial h [id])
  have drops' := freeUnique_drops outside found (by omega)
  rw [List.append_nil] at drops
  refine ⟨?_,fun x => (decRef_frees h id).mem_gone,(drops'.alike drops (.refl _)).1,?_⟩
  · have same := drops'.stage.gone_perm drops.stage (.refl _)
    exact (List.reverse_perm _).symm.trans (same.trans (List.reverse_perm _))
  · intro ints single
    have live := population_le h
    have room : h.cells.size < (h.cells.size + 1) * (h.poolSize + 1) :=
      (Nat.lt_succ_self _).trans_le (Nat.le_mul_of_pos_right _ (Nat.succ_pos _))
    exact freeTreeWithin_eq ints single _ _ (Drops.initial h [id]) (fun _ => .refl) (by omega) (by omega)

/-- A pair of an integer and a pair, which holds an integer and one of the pool. -/
def nestedPairs : Heap :=
  ((((((withPool 1).newPoolInt 7).2.newInt 1).2.newPair (some 1) (some 0)).2.newInt 2).2.newPair
    (some 3) (some 2)).2

theorem nestedPairs_agree : nestedPairs.poolSize ≤ 4 ∧ nestedPairs.count? 4 = some 1 ∧
    (nestedPairs.freeUnique 4).1 = [4,3,2,1] ∧ (nestedPairs.decRef 4).1 = [4,2,1,3] ∧
    (nestedPairs.freeUnique 4).1.Perm (nestedPairs.decRef 4).1 ∧
    nestedPairs.freeTree 4 = nestedPairs.decRef 4 := by
  have outside : nestedPairs.poolSize ≤ 4 := by decide
  have unique : nestedPairs.count? 4 = some 1 := by decide
  obtain ⟨freed,_,_,tree⟩ := direct_releases_agree outside unique
  refine ⟨outside,unique,by decide,by decide,freed,tree ?_ ?_⟩
  · have small : ∀ x < nestedPairs.cells.size, x < nestedPairs.poolSize →
        (nestedPairs.object? x).any Object.isPair = false := by decide
    intro x object found inside
    simpa [found] using small x (object_bound found) inside
  · have small : ∀ x < nestedPairs.cells.size, nestedPairs.poolSize ≤ x →
        nestedPairs.count? x = some 1 := by decide
    exact fun x reached outside => small x (isLive_bound (reached.live (by decide))) outside

end StagedLisp.Heap
