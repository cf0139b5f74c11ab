import Mathlib.Logic.Equiv.Basic
import StagedLisp.Proofs.Heap.Client
import StagedLisp.Proofs.Heap.Confluence

/-! Storing something in the place of a cell that is given up. It does what dropping the reference and
storing it in a cell that is free does, but for the number of the cell. -/
namespace StagedLisp

open Function

def Content.rename (σ : Nat → Nat) : Content → Content
  | .int value => .int value
  | .pair head tail => .pair (head.map σ) (tail.map σ)

def Object.rename (σ : Nat → Nat) (o : Object) : Object := { o with content := o.content.rename σ }

theorem Object.rename_eq {σ : Nat → Nat} {o : Object} (fixed : ∀ child ∈ o.children, σ child = child) :
    o.rename σ = o := by
  obtain ⟨count,component,content⟩ := o
  cases content with
  | int value => rfl
  | pair head tail =>
    cases head <;> cases tail <;> simp_all [children,rename,Content.rename]

namespace Heap

variable {h start : Heap} {id : Nat} {object : Object} {content : Content} {refs gone : List Nat}

theorem Drops.isLive {todo : List Nat} (drops : Drops start refs todo gone h) (left : id ∉ gone)
    (found : start.object? id = some object) : h.isLive id = true := by
  simp [Heap.isLive,drops.objects id,left,found]

theorem Drops.children_first (drops : Drops start (start.children id) [] gone h)
    (outside : start.poolSize ≤ id) (found : start.object? id = some object)
    (last : object.count ≤ 1) (unheld : ∀ x, id ∉ start.children x) :
    Drops start [id] [] (id :: gone) (h.release id).2 := by
  have stage := drops.stage.of_held (counted_eq found outside) last unheld
  have left := (List.nodup_cons.mp stage.distinct).1
  have counted : h.poolSize ≤ id := drops.poolSize ▸ outside
  have live := drops.isLive left found
  have frame := release_eq counted live
  refine ⟨stage,by simpa [frame] using drops.size,by simpa [frame] using drops.poolSize,?_,
    by simp [frame,drops.recycled],?_⟩
  · intro x
    rw [object?_release counted live]
    by_cases same : x = id
    · simp [same]
    · rw [update_of_ne same,drops.objects x]
      simp [same,Cascade.dropped,Cascade.due,List.count_cons_of_ne (Ne.symm same)]
  · simp only [frame,drops.freed,List.length_cons]
    omega

theorem Balanced.unheld (balanced : Balanced h (id :: refs)) (outside : h.poolSize ≤ id)
    (found : h.object? id = some object) (one : object.count = 1) (x : Nat) :
    id ∉ h.children x := by
  have count := balanced.count_eq found outside
  rw [one,List.count_cons_self] at count
  have none : h.held.count id = 0 := by omega
  exact fun child => List.count_eq_zero.mp none (mem_held.mpr ⟨x,child⟩)

/-- The new object is all that tells the heap from one in which the reference has been dropped. -/
theorem reuse_objects (balanced : Balanced h (id :: (({ content } : Object).children ++ refs))) :
    (h.decRef id).2.object? ((h.tryReuse id).2.reuse (h.tryReuse id).1 content).1 = none ∧
    ((h.tryReuse id).2.reuse (h.tryReuse id).1 content).2.object? =
      Function.update (h.decRef id).2.object? ((h.tryReuse id).2.reuse (h.tryReuse id).1 content).1
        (some { content }) := by
  by_cases unique : h.poolSize ≤ id ∧ h.count? id = some 1
  · obtain ⟨outside,unique⟩ := unique
    obtain ⟨object,found,one⟩ := Option.map_eq_some_iff.mp unique
    have unheld := balanced.unheld outside found one
    have drops := (Drops.initial h (h.children id)).each
    have freed := drops.children_first outside found one.le unheld
    have live := drops.isLive (List.nodup_cons.mp freed.stage.distinct).1 found
    have same := (freed.alike (decRef_drops (Drops.initial h [id])) (.refl _)).1
    rw [object?_release (drops.poolSize ▸ outside) live] at same
    rw [tryReuse_unique outside unique,reuse_inside (isLive_bound live),← funext same,
      object?_put (isLive_bound live),update_idem]
    exact ⟨update_self _ _ _,rfl⟩
  · have stored := alloc_stored (decRef_dropped balanced.regular balanced.accounts).regular content
    rw [tryReuse_shared fun outside one => unique ⟨outside,one⟩]
    exact ⟨stored.free,stored.objects⟩

section Swap

variable {one other : Nat × Heap} {objects : Nat → Option Object}
  (here : one.2.object? = Function.update objects one.1 (some { content }))
  (there : other.2.object? = Function.update objects other.1 (some { content }))
  (free : objects one.1 = none) (free' : objects other.1 = none)

include here there free free'

theorem object?_swap (x : Nat) : one.2.object? (Equiv.swap other.1 one.1 x) = other.2.object? x := by
  rw [here,there]
  by_cases new : x = other.1
  · simp [new]
  · by_cases old : x = one.1
    · have differ : one.1 ≠ other.1 := old ▸ new
      simp [old,update_of_ne differ,update_of_ne differ.symm,free,free']
    · rw [Equiv.swap_apply_of_ne_of_ne new old,update_of_ne old,update_of_ne new]

/-- What an object refers to is live in both heaps, so it is neither of the two cells if they differ. -/
theorem swap_child (balanced : Balanced one.2 (one.1 :: refs))
    (balanced' : Balanced other.2 (other.1 :: refs)) {x : Nat}
    (found : other.2.object? x = some object) {child : Nat} (member : child ∈ object.children) :
    Equiv.swap other.1 one.1 child = child := by
  by_cases same : one.1 = other.1
  · simp [same]
  · have moved := object?_swap here there free free' x
    have live : one.2.isLive child = true := balanced.held_live (mem_held.mpr
      ⟨Equiv.swap other.1 one.1 x,by simpa [children,moved,found] using member⟩)
    have live' : other.2.isLive child = true := balanced'.held_live (mem_held.mpr
      ⟨x,by simpa [children,found] using member⟩)
    refine Equiv.swap_apply_of_ne_of_ne ?_ ?_
    · rintro rfl
      simp [isLive,here,Ne.symm same,free'] at live
    · rintro rfl
      simp [isLive,there,same,free] at live'

end Swap

/-- Renumbering one cell turns the heap in which the reference was dropped and the new object stored in
a free cell into the heap in which it was stored in place; or the cell is the same, if the old one is in
the pool or still referred to. All other cells are the same. -/
theorem reuse_replaces {old : Nat}
    (balanced : Balanced h (old :: (({ content } : Object).children ++ refs))) :
    let reused := (h.tryReuse old).2.reuse (h.tryReuse old).1 content
    let fresh := (h.decRef old).2.alloc content
    let swap := Equiv.swap fresh.1 reused.1
    (∀ x, reused.2.object? (swap x) = (fresh.2.object? x).map (Object.rename swap)) ∧
    (∀ x, x ≠ reused.1 → x ≠ fresh.1 → reused.2.object? x = fresh.2.object? x) ∧
    (reused.1 ≠ fresh.1 → reused.2.isLive fresh.1 = false ∧ fresh.2.isLive reused.1 = false) ∧
    reused.2.object? reused.1 = some { count := 1,content } ∧
    fresh.2.object? fresh.1 = some { count := 1,content } := by
  intro reused fresh swap
  have dropped := decRef_dropped balanced.regular balanced.accounts
  have stored := alloc_stored dropped.regular content
  obtain ⟨free,here⟩ := reuse_objects balanced
  refine ⟨?_,?_,?_,by simp [reused,here],by simp [fresh,stored.objects]⟩
  · intro x
    rw [object?_swap here stored.objects free stored.free]
    cases found : fresh.2.object? x with
    | none => rfl
    | some object =>
      have fixed (child : Nat) (member : child ∈ object.children) : swap child = child :=
        swap_child here stored.objects free stored.free (reuse_balanced balanced).1
          (alloc_allocated dropped.balanced).balanced found member
      rw [Option.map_some,Object.rename_eq fixed]
  · intro x away away'
    rw [here,stored.objects,Function.update_of_ne away,Function.update_of_ne away']
  · intro differ
    simp only [isLive,reused,fresh,here,stored.objects]
    rw [Function.update_of_ne differ.symm,Function.update_of_ne differ,free,stored.free]
    exact ⟨rfl,rfl⟩

end Heap

/-- A pair that is owned once and holds the only reference to an integer, and another integer. -/
def Client.replaceable : Client :=
  [.newPoolInt 7,.newInt 1,.newPair (some 1) (some 0),.newInt 9].foldl act { memory := .start { poolSize := 1 } }

/-- The pair is replaced by one with other parts. When its reference is dropped, the cell of its head is
freed last and used first. -/
theorem Client.replaceable_replaced :
    let h := replaceable.heap
    let content := Content.pair (some 3) (some 0)
    let reused := (h.tryReuse 2).2.reuse (h.tryReuse 2).1 content
    let fresh := (h.decRef 2).2.alloc content
    (∃ refs,h.Balanced (2 :: (({ content } : Object).children ++ refs))) ∧ reused.1 = 2 ∧ fresh.1 = 1 ∧
    reused.2.isLive 1 = false ∧ fresh.2.isLive 2 = false ∧
    reused.2.object? 2 = some { count := 1,content } := by
  have runs : Runs { poolSize := 1 } replaceable :=
    .act (.act (.act (.act .start (by decide)) (by decide)) (by decide)) (by decide)
  have permits : replaceable.Permits (.reuse 2 (.pair (some 3) (some 0))) := by decide
  have balanced : replaceable.heap.Balanced (2 :: (({ content := .pair (some 3) (some 0) } :
      Object).children ++ _)) := runs.accounted.handOver permits
  obtain ⟨_,_,dead,here,_⟩ := Heap.reuse_replaces balanced
  have apart := dead (by decide)
  exact ⟨⟨_,balanced⟩,by decide,by decide,apart.1,apart.2,here⟩

end StagedLisp
