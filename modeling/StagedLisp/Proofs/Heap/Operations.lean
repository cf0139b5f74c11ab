import StagedLisp.Heap.Deferred
import StagedLisp.Proofs.Heap.Release

/-! What each operation on a heap does to its accounts: which references from outside it takes, and
which it gives. -/
namespace StagedLisp

open List Function Option

namespace Heap

/-- The heap keeps its books, and the references from outside account for its cells. -/
structure Balanced (h : Heap) (refs : List Nat) : Prop where
  regular : Regular h
  accounts : Accounts h none refs

structure Frame (h h' : Heap) : Prop where
  poolSize : h'.poolSize = h.poolSize
  pending : h'.pending = h.pending

theorem Shrinks.frame {h h' : Heap} (s : Shrinks h h') : Frame h h' := ⟨s.poolSize,s.pending⟩

@[simp] theorem object?_withPool (size id : Nat) : (withPool size).object? id = none := by
  rw [object?_eq,withPool,Array.getElem?_replicate]
  split <;> rfl

theorem withPool_balanced (size : Nat) : Balanced (withPool size) [] := by
  refine ⟨⟨?_,?_,?_,?_,?_,nodup_nil⟩,?_,?_⟩
  · simp [withPool]
  · intro id _
    exact iff_of_false (by simp [isLive]) (Nat.not_lt_zero id)
  · intro id object found
    simp at found
  · intro id object found
    simp at found
  · intro id member
    cases member
  · intro id object found
    simp at found
  · simp [heldBy,kids]

section Balanced

variable {h h' : Heap} {id : Nat} {object : Object} {content : Content} {refs refs' : List Nat}

theorem Balanced.perm (balanced : Balanced h refs) (same : refs.Perm refs') : Balanced h refs' :=
  ⟨balanced.regular,balanced.accounts.perm same⟩

theorem Dropped.balanced (dropped : Dropped none refs h h') : Balanced h' refs :=
  ⟨dropped.regular,dropped.accounts⟩

theorem Balanced.dropped (balanced : Balanced h refs) : Dropped none refs h h :=
  ⟨balanced.regular,balanced.accounts,.refl h,fun _ _ => rfl⟩

theorem Balanced.live (balanced : Balanced h refs) (member : id ∈ refs) : h.isLive id = true :=
  isLive_iff.mpr (balanced.accounts.live member).2

theorem Balanced.pool_cons (balanced : Balanced h refs) (inPool : id < h.poolSize)
    (live : h.isLive id = true) : Balanced h (id :: refs) := by
  refine ⟨balanced.regular,Accounted.reorder balanced.accounts ?_ ?_⟩
  · intro x counted
    exact count_cons_of_ne (inPool.trans_le counted).ne
  · intro x member
    rw [seen_none]
    rcases mem_cons.mp member with rfl | member
    · exact live
    · exact balanced.live member

theorem incRef_balanced (balanced : Balanced h refs) (live : h.isLive id = true) :
    Balanced (h.incRef id) (id :: refs) := by
  obtain ⟨object,found⟩ := isLive_iff.mp live
  unfold incRef
  by_cases inPool : h.inPool id = true
  · rw [if_pos inPool]
    exact balanced.pool_cons (by simpa [Heap.inPool] using inPool) live
  · rw [if_neg inPool,update,found]
    have inside := object_bound found
    constructor
    · apply balanced.regular.put found
      · exact fun _ => Nat.succ_pos _
      · exact balanced.regular.poolInts id object found
    · apply balanced.accounts.change (object?_put inside) (by simp [put]) rfl inside (by simp) (.inl rfl)
      intro x
      rw [found,count_reference]
      simp only [kids_some,weight_some,children_recount]
      split <;> omega

theorem incRef_frame (h : Heap) (id : Nat) : Frame h (h.incRef id) := by
  unfold incRef update
  split
  · exact ⟨rfl,rfl⟩
  · split <;> exact ⟨rfl,rfl⟩

theorem children_of_int (int : object.isPair = false) : object.children = [] := by
  unfold Object.isPair at int
  unfold Object.children
  cases content : object.content with
  | int value => rfl
  | pair head tail =>
    rw [content] at int
    cases int

theorem poolInts_children (regular : Regular h) (found : h.object? id = some object)
    (inPool : id < h.poolSize) : object.children = [] :=
  children_of_int (regular.poolInts id object found inPool)

theorem freeUnique_dropped (balanced : Balanced h (id :: refs)) (unique : h.count? id = some 1) :
    Dropped none refs h (h.freeUnique id).2 := by
  obtain ⟨object,found,one⟩ := map_eq_some_iff.mp unique
  have kids : h.children id = object.children := by rw [children,found]; rfl
  unfold freeUnique
  dsimp only
  rw [kids]
  by_cases counted : h.poolSize ≤ id
  · have freed := release_dropped balanced.regular balanced.accounts counted found one.le
    exact freed.trans (decRefs_dropped _ freed.regular freed.accounts)
  · have inPool := Nat.lt_of_not_le counted
    have same : (h.release id).2 = h := by simp [release,Heap.inPool,inPool]
    rw [same,poolInts_children balanced.regular found inPool]
    exact ⟨balanced.regular,balanced.accounts.pool_drop inPool,.refl h,fun _ _ => rfl⟩

theorem setTail_dropped {head old tail : Option Nat} (balanced : Balanced h (tail.toList ++ refs))
    (found : h.object? id = some object) (pair : object.content = .pair head old) :
    Dropped none refs h (h.setTail id tail) := by
  have inside := object_bound found
  have isPair : object.isPair = true := by rw [Object.isPair,pair]
  have replaced : Dropped none (old.toList ++ refs) h (h.put id { object with content := .pair head tail }) := by
    refine ⟨?_,?_,shrinks_put found _,by simp⟩
    · apply balanced.regular.put found
      · exact balanced.regular.positive id object found
      · intro inPool
        rw [balanced.regular.poolInts id object found inPool] at isPair
        cases isPair
    · apply balanced.accounts.change (object?_put inside) (by simp [put]) rfl inside (by simp) (.inl rfl)
      intro x
      rw [found]
      simp only [kids_some,weight_some,Object.children,pair,count_append]
      omega
  unfold setTail
  rw [found]
  dsimp only
  rw [pair]
  cases old with
  | none => exact replaced
  | some old => exact replaced.trans (decRef_dropped replaced.regular replaced.accounts)

structure Allocated (h : Heap) (refs : List Nat) (id : Nat) (h' : Heap) : Prop where
  balanced : Balanced h' (id :: refs)
  fresh : h.isLive id = false
  frame : Frame h h'

theorem accounted_new (content : Content) {cells : Nat → Option Object} {pool n : Nat}
    (inside : id < n) (free : cells id = none)
    (accounted : Accounted pool n cells (({ content } : Object).children ++ refs)) :
    Accounted pool n (Function.update cells id (some { content })) (id :: refs) := by
  apply accounted.change inside (some { content }) (.inl rfl)
  intro x
  rw [free,count_reference]
  simp only [kids_some,kids_none,weight_some,weight_none,count_append,count_nil]
  split <;> omega

theorem alloc_recycled {rest : List Nat} (recycled : h.recycled = id :: rest) :
    h.alloc content = (id,{ h with recycled := rest }.put id { content }) := by
  rw [alloc,recycled]

theorem alloc_push (recycled : h.recycled = []) : h.alloc content =
    (h.cells.size,{ h with cells := h.cells.push (some { content }) }) := by
  rw [alloc,recycled]

theorem object?_size (h : Heap) : h.object? h.cells.size = none := by
  rw [object?_eq,Array.getElem?_eq_none le_rfl]
  rfl

theorem object?_push (h : Heap) (new : Option Object) : ({ h with cells := h.cells.push new } : Heap).object? =
      Function.update h.object? h.cells.size new := by
  funext x
  rw [object?_eq,Array.getElem?_push]
  by_cases same : x = h.cells.size
  · subst same
    simp
  · rw [if_neg same,update_of_ne same,object?_eq]

structure Stored (h : Heap) (id : Nat) (content : Content) (h' : Heap) : Prop where
  regular : Regular h'
  free : h.object? id = none
  objects : h'.object? = Function.update h.object? id (some { content })
  grown : (id < h.cells.size ∧ h'.cells.size = h.cells.size) ∨
    (id = h.cells.size ∧ h'.cells.size = h.cells.size + 1)
  frame : Frame h h'

theorem Stored.fresh (stored : Stored h id content h') : h.isLive id = false := by
  simp [isLive,stored.free]

theorem Stored.allocated (stored : Stored h id content h')
    (balanced : Balanced h (({ content } : Object).children ++ refs)) : Allocated h refs id h' := by
  have free := stored.free
  have accounts := balanced.accounts
  rw [Accounts,seen_none] at accounts
  refine ⟨⟨stored.regular,?_⟩,stored.fresh,stored.frame⟩
  rw [Accounts,seen_none,stored.objects,stored.frame.poolSize]
  rcases stored.grown with ⟨inside,size⟩ | ⟨rfl,size⟩
  · rw [size]
    exact accounted_new content inside free accounts
  · rw [size]
    exact accounted_new content (Nat.lt_succ_self _) free (accounts.widen free)

theorem alloc_stored (regular : Regular h) (content : Content) :
    Stored h (h.alloc content).1 content (h.alloc content).2 := by
  cases recycled : h.recycled with
  | cons id rest =>
    obtain ⟨counted,inside,free⟩ := regular.recycled id (recycled ▸ mem_cons_self)
    have taken := (nodup_cons.mp (recycled ▸ regular.distinct)).1
    have changed : ({ h with recycled := rest }.put id { content }).object? =
        Function.update h.object? id (some { content }) := object?_put inside
    rw [alloc_recycled recycled]
    refine ⟨?_,free,changed,.inl ⟨inside,by simp [put]⟩,⟨rfl,rfl⟩⟩
    apply regular.stored changed
    · simp [put]
    · rfl
    · rfl
    · exact recycled ▸ sublist_cons_self id rest
    · exact taken
    · exact fun _ => Nat.one_pos
    · exact fun inPool => absurd counted (Nat.not_le.mpr inPool)
  | nil =>
    have changed := object?_push h (some { content })
    rw [alloc_push recycled]
    refine ⟨?_,object?_size h,changed,.inr ⟨rfl,by simp⟩,⟨rfl,rfl⟩⟩
    apply regular.stored changed
    · simp
    · rfl
    · rfl
    · exact List.Sublist.refl _
    · simp [recycled]
    · exact fun _ => Nat.one_pos
    · exact fun inPool => absurd regular.poolWithin (Nat.not_le.mpr inPool)

theorem alloc_allocated (balanced : Balanced h (({ content } : Object).children ++ refs)) :
    Allocated h refs (h.alloc content).1 (h.alloc content).2 :=
  (alloc_stored balanced.regular content).allocated balanced

theorem newPoolInt_stored (regular : Regular h) (value : Int64) :
    Stored h (h.newPoolInt value).1 (.int value) (h.newPoolInt value).2 := by
  unfold newPoolInt
  split
  case isFalse => exact alloc_stored regular (.int value)
  case isTrue room =>
    have inside := room.trans_le regular.poolWithin
    have free : h.object? h.poolUsed = none := by
      have unused := regular.poolUsed h.poolUsed room
      simpa [isLive] using unused
    have changed : ({ h with poolUsed := h.poolUsed + 1 }.put h.poolUsed { content := .int value }).object? =
        Function.update h.object? h.poolUsed (some { content := .int value }) := object?_put inside
    have fields {x : Nat} {object : Object} (found : ({ h with poolUsed := h.poolUsed + 1 }.put
        h.poolUsed { content := .int value }).object? x = some object) :
        object = { content := .int value } ∨ h.object? x = some object := by
      rw [changed,update_apply] at found
      split at found
      · exact .inl (some.inj found).symm
      · exact .inr found
    refine ⟨⟨?_,?_,?_,?_,?_,regular.distinct⟩,free,changed,.inl ⟨inside,by simp [put]⟩,⟨rfl,rfl⟩⟩
    · simpa [put] using regular.poolWithin
    · intro x inPool
      have before := regular.poolUsed x inPool
      by_cases same : x = h.poolUsed
      · subst same
        exact iff_of_true (by rw [isLive,changed]; simp) (Nat.lt_succ_self _)
      · rw [isLive_of_update changed same,before]
        simp only [put]
        omega
    · intro x object found inPool
      rcases fields found with rfl | found
      · rfl
      · exact regular.poolInts x object found inPool
    · intro x object found counted
      rcases fields found with rfl | found
      · exact Nat.one_pos
      · exact regular.positive x object found counted
    · intro x member
      obtain ⟨counted,within,absent⟩ := regular.recycled x member
      refine ⟨counted,by simpa [put] using within,?_⟩
      rw [changed,update_of_ne,absent]
      exact (room.trans_le counted).ne'

theorem newPoolInt_allocated (balanced : Balanced h refs) (value : Int64) :
    Allocated h refs (h.newPoolInt value).1 (h.newPoolInt value).2 :=
  (newPoolInt_stored balanced.regular value).allocated balanced

theorem Balanced.setPending (balanced : Balanced h refs) (pending : List Nat) : Balanced { h with pending } refs :=
  ⟨⟨balanced.regular.poolWithin,balanced.regular.poolUsed,balanced.regular.poolInts,
    balanced.regular.positive,balanced.regular.recycled,balanced.regular.distinct⟩,balanced.accounts⟩

theorem flush_dropped (balanced : Balanced h (h.pending ++ refs)) :
    Dropped none refs { h with pending := [] } h.flush.2 :=
  decRefs_dropped h.pending (balanced.setPending []).regular balanced.accounts

theorem Balanced.leaveOut (balanced : Balanced h (id :: refs)) (counted : h.poolSize ≤ id)
    (found : h.object? id = some object) (one : object.count = 1) :
    Accounts h (some id) (object.children ++ refs) := by
  have without : h.seen (some id) = Function.update h.object? id none := by
    funext x
    rw [seen,update_apply]
    simp only [some.injEq,eq_comm]
  rw [Accounts,without]
  have accounts := balanced.accounts
  rw [Accounts,seen_none] at accounts
  apply accounts.change (object_bound found) none (.inr counted)
  intro x
  rw [found,count_reference]
  simp only [kids_some,kids_none,weight_some,weight_none,one,count_append,count_nil]
  split <;> omega

theorem Accounts.fill (accounts : Accounts h (some id) (({ content } : Object).children ++ refs))
    (inside : id < h.cells.size) : Accounts (h.put id { content }) none (id :: refs) := by
  have filled : (h.put id { content }).object? = Function.update (h.seen (some id)) id (some { content }) := by
    rw [object?_put inside]
    funext x
    by_cases same : x = id
    · rw [same,update_self,update_self]
    · rw [update_of_ne same,update_of_ne same,seen_of_ne]
      exact fun out => same (some.inj out).symm
  rw [Accounts,seen_none,filled]
  have next := accounted_new content inside (if_pos rfl) accounts
  simpa [put] using next

theorem tryReuse_unique (counted : h.poolSize ≤ id) (unique : h.count? id = some 1) : h.tryReuse id =
      (some id,(releaseEach (fun child h => h.decRef child) h (h.children id)).2) := by
  simp [tryReuse,inPool_eq_false.mpr counted,unique]

theorem tryReuse_shared (shared : h.poolSize ≤ id → h.count? id ≠ some 1) :
    h.tryReuse id = (none,(h.decRef id).2) := by
  unfold tryReuse
  by_cases inPool : id < h.poolSize
  · simp [Heap.inPool,inPool]
  · simp [shared (le_of_not_gt inPool)]

theorem reuse_inside (inside : id < h.cells.size) :
    h.reuse (some id) content = (id,h.put id { content }) := if_pos inside

theorem reuse_unique (balanced : Balanced h (id :: (({ content } : Object).children ++ refs)))
    (counted : h.poolSize ≤ id) (unique : h.count? id = some 1) :
    ∃ h', (h.tryReuse id).2.reuse (h.tryReuse id).1 content = (id,h') ∧ Balanced h' (id :: refs) ∧ Frame h h' := by
  obtain ⟨object,found,one⟩ := map_eq_some_iff.mp unique
  have kids : h.children id = object.children := by rw [children,found]; rfl
  have dropped := decRefs_dropped _ balanced.regular (balanced.leaveOut counted found one)
  have still := (dropped.kept id rfl).trans found
  have inside := object_bound still
  rw [tryReuse_unique counted unique,kids,reuse_inside inside]
  refine ⟨_,rfl,⟨?_,dropped.accounts.fill inside⟩,⟨dropped.shrinks.poolSize,dropped.shrinks.pending⟩⟩
  apply dropped.regular.put still
  · exact fun _ => Nat.one_pos
  · rw [dropped.shrinks.poolSize]
    exact fun inPool => absurd counted (Nat.not_le.mpr inPool)

theorem decRef_isLive (found : h.object? id = some object) (shared : h.poolSize ≤ id → 1 < object.count) (x : Nat) :
    (h.decRef id).2.isLive x = h.isLive x := by
  rw [decRef,decRefWithin]
  split
  · rfl
  · next outside =>
    have counted : h.poolSize ≤ id := inPool_eq_false.mp (Bool.not_eq_true _ ▸ outside)
    rw [found]
    dsimp only
    rw [if_pos (shared counted)]
    by_cases same : x = id
    · subst same
      simp [isLive,object?_put (object_bound found),found]
    · exact isLive_of_update (object?_put (object_bound found)) same

theorem reuse_shared (balanced : Balanced h (id :: (({ content } : Object).children ++ refs)))
    (shared : h.poolSize ≤ id → h.count? id ≠ some 1) :
    Allocated h refs ((h.tryReuse id).2.reuse (h.tryReuse id).1 content).1
      ((h.tryReuse id).2.reuse (h.tryReuse id).1 content).2 := by
  obtain ⟨object,found⟩ := (balanced.accounts.live mem_cons_self).2
  have dropped := decRef_dropped balanced.regular balanced.accounts
  have frees := decRef_isLive found fun counted => by
    have positive := balanced.regular.positive id object found counted
    have other := shared counted
    rw [count?,found,map_some,ne_eq,some.injEq] at other
    omega
  have stored := alloc_allocated dropped.balanced
  rw [tryReuse_shared shared]
  exact ⟨stored.balanced,(frees _).symm.trans stored.fresh,stored.frame.poolSize.trans dropped.shrinks.poolSize,
    stored.frame.pending.trans dropped.shrinks.pending⟩

theorem reuse_balanced (balanced : Balanced h (id :: (({ content } : Object).children ++ refs))) :
    Balanced ((h.tryReuse id).2.reuse (h.tryReuse id).1 content).2
        (((h.tryReuse id).2.reuse (h.tryReuse id).1 content).1 :: refs) ∧
      Frame h ((h.tryReuse id).2.reuse (h.tryReuse id).1 content).2 := by
  by_cases unique : h.poolSize ≤ id ∧ h.count? id = some 1
  · obtain ⟨h',reused,after⟩ := reuse_unique balanced unique.1 unique.2
    rw [reused]
    exact after
  · have stored := reuse_shared balanced fun counted one => unique ⟨counted,one⟩
    exact ⟨stored.balanced,stored.frame⟩

end Balanced

end Heap

end StagedLisp
