import StagedLisp.Heap.Destination
import StagedLisp.Proofs.Heap.Weak

/-! Mapping a list into destinations. Whatever has been done to the heap before, the cells that are
written were not in use, so the list that is read stays as it is. -/
namespace StagedLisp

open List Heap Memory

namespace Heap

variable {h mid h' : Heap} {list : Option Nat} {values others : List Int64}

/-- The live cells from one on are a list of integers, which does not come back to itself. -/
inductive Lists (h : Heap) : Option Nat → List Int64 → Prop
  | nil : Lists h none []
  | cons {cell head tail value values} :
      h.content? cell = some (.pair (some head) tail) → h.content? head = some (.int value) →
      Lists h tail values → Lists h (some cell) (value :: values)

theorem live_of_content {x : Nat} {content : Content} (holds : h.content? x = some content) :
    h.isLive x = true := by
  rw [isLive_eq_content,holds]
  rfl

theorem Retains.live {x : Nat} (retains : Retains h h') (live : h.isLive x = true) : h'.isLive x = true := by
  rw [isLive_eq_content,retains.contents x live,← isLive_eq_content,live]

theorem Retains.trans (first : Retains h mid) (second : Retains mid h') : Retains h h' :=
  ⟨fun x live => (second.contents x (first.live live)).trans (first.contents x live),second.regular⟩

theorem Retains.content {x : Nat} {content : Content} (retains : Retains h h')
    (holds : h.content? x = some content) : h'.content? x = some content :=
  (retains.contents x (live_of_content holds)).trans holds

namespace Lists

theorem unique (first : Lists h list values) (second : Lists h list others) : values = others := by
  induction first generalizing others with
  | nil => cases second; rfl
  | cons cell head _ ih =>
    cases second with
    | cons cell' head' rest =>
      cases cell.symm.trans cell'
      cases head.symm.trans head'
      rw [ih rest]

theorem retained (listed : Lists h list values) (retains : Retains h h') : Lists h' list values := by
  induction listed with
  | nil => exact .nil
  | cons cell head _ ih => exact .cons (retains.content cell) (retains.content head) ih

/-- The cells of the spine are distinct: from each of them on, there is a list of another length. -/
theorem spine (listed : Lists h list values) : ∃ cells : List Nat, cells.length = values.length ∧
    cells.Nodup ∧ ∀ cell ∈ cells, h.isLive cell = true ∧
      ∃ rest, Lists h (some cell) rest ∧ rest.length ≤ values.length := by
  induction listed with
  | nil => exact ⟨[],rfl,nodup_nil,nofun⟩
  | @cons cell head tail value values holds int rest ih =>
    obtain ⟨cells,length,distinct,each⟩ := ih
    have whole : Lists h (some cell) (value :: values) := .cons holds int rest
    refine ⟨cell :: cells,congrArg (· + 1) length,nodup_cons.mpr ⟨fun member => ?_,distinct⟩,
      forall_mem_cons.mpr ⟨⟨live_of_content holds,_,whole,le_rfl⟩,fun other member => ?_⟩⟩
    · obtain ⟨-,again,listed,short⟩ := each cell member
      rw [← whole.unique listed] at short
      exact absurd short (Nat.not_succ_le_self _)
    · obtain ⟨live,rest,listed,short⟩ := each other member
      exact ⟨live,rest,listed,short.trans (Nat.le_succ _)⟩

theorem length_le (listed : Lists h list values) : values.length ≤ h.cells.size := by
  obtain ⟨cells,length,distinct,each⟩ := listed.spine
  have inside : cells ⊆ range h.cells.size := fun cell member =>
    mem_range.mpr (isLive_bound (each cell member).1)
  rw [← length]
  exact (distinct.subperm inside).length_le.trans (length_range ..).le

theorem ints (listed : Lists h list values) : h.ints list = values := by
  have within (steps : Nat) (enough : values.length < steps) : h.intsWithin steps list = values := by
    induction listed generalizing steps with
    | nil => cases steps <;> rfl
    | @cons cell head tail value values holds int _ ih =>
      cases steps with
      | zero => cases enough
      | succ steps =>
        have here : h.int? head = some value := by
          rw [int?,← content?,int]
        rw [intsWithin,← content?,holds]
        dsimp only
        rw [ih steps (Nat.lt_of_succ_lt_succ enough),Option.bind_some,here]
        rfl
  exact within _ (Nat.lt_succ_of_le listed.length_le)

end Lists

theorem release_regular (regular : Regular h) (id : Nat) : Regular (h.release id).2 := by
  cases found : h.object? id with
  | none => simpa [release,isLive,found] using regular
  | some object =>
    rcases Nat.lt_or_ge id h.poolSize with inside | outside
    · simpa [release,inPool,inside] using regular
    · exact regular.release outside found

theorem releaseEach_regular {action : Nat → Heap → List Nat × Heap} (regular : Regular h)
    (each : ∀ id h, Regular h → Regular (action id h).2) (ids : List Nat) :
    Regular (releaseEach action h ids).2 := by
  rw [releaseEach_snd]
  exact foldlRecOn ids _ regular fun h regular id _ => each id h regular

theorem freeTreeWithin_regular (depth id : Nat) (regular : Regular h) : Regular (freeTreeWithin depth id h).2 := by
  induction depth generalizing h id with
  | zero => exact regular
  | succ depth ih =>
    rw [freeTreeWithin]
    cases h.object? id with
    | none => exact regular
    | some object => exact releaseEach_regular (release_regular regular id) (fun id _ => ih id) _

theorem setTail_regular (regular : Regular h) (id : Nat) (tail : Option Nat) : Regular (h.setTail id tail) := by
  unfold setTail
  split
  · next object found =>
    split
    · next head old pair =>
      have outside : ¬ id < h.poolSize := fun inside => by
        have int := regular.poolInts id object found inside
        rw [Object.isPair,pair] at int
        cases int
      have put : Regular (h.put id { object with content := .pair head tail }) :=
        regular.put found (regular.positive id object found) fun inside => absurd inside outside
      cases old with
      | none => exact put
      | some old => exact (decRef_frees _ old).regular put
    · exact regular
  · exact regular

end Heap

namespace Memory

/-- The actions that make, change and release cells at once. -/
def Action.isDirect : Action → Bool
  | newInt _ | newPoolInt _ | newPair _ _ | setTail _ _ | incRef _ | decRef _ | freeTree _
  | freeUnique _ => true
  | _ => false

theorem perform_regular {m : Memory} {a : Action} (direct : a.isDirect = true)
    (regular : Regular m.heap) : Regular (a.perform m).heap := by
  cases a with
  | newInt | newPair => exact (alloc_stored regular _).regular
  | newPoolInt value => exact (newPoolInt_stored regular value).regular
  | setTail id tail => exact setTail_regular regular id tail
  | incRef id => exact (incRef_retains regular id).regular
  | decRef id => exact (decRef_frees _ id).regular regular
  | freeTree id => exact freeTreeWithin_regular _ id regular
  | freeUnique id =>
    exact releaseEach_regular (release_regular regular id) (fun id h => (decRef_frees h id).regular) _
  | _ => cases direct

theorem direct_regular (options : Options) {actions : List Action}
    (direct : ∀ a ∈ actions, a.isDirect = true) : Regular ((start options).run actions).heap := by
  refine foldlRecOn (motive := fun m : Memory => Regular m.heap) actions _ ?_ ?_
  · exact (withPool_balanced options.poolSize).regular
  · exact fun _ regular a member => perform_regular (direct a member) regular

end Memory

namespace Destination

variable {h : Heap}

def holding (d : Destination) (cell : Nat) : Destination := { d with cell := some cell }

theorem writeInt_stored (regular : Regular h) (d : Destination) (value : Int64) :
    Stored h (d.writeInt h value).1 (.int value) (d.writeInt h value).2.2 := by
  cases pool : d.inPool with
  | true => simpa [writeInt,pool] using newPoolInt_stored regular value
  | false => simpa [writeInt,pool,newInt] using alloc_stored regular (.int value)

/-- Each value goes to a cell of its own that was not in use; what was in use is kept. -/
theorem writeEach_fills (regular : Regular h) {values : List Int64} {dests : List Destination}
    (room : values.length ≤ dests.length) : ∃ (cells : List Nat) (h' : Heap),
    writeEach values dests h = (zipWith holding dests cells ++ dests.drop values.length,h') ∧
      cells.Nodup ∧ (∀ cell ∈ cells, h.isLive cell = false) ∧
      Forall₂ (fun cell value => h'.content? cell = some (.int value)) cells values ∧
      Retains h h' := by
  induction values generalizing h dests with
  | nil => exact ⟨[],h,by simp [writeEach],nodup_nil,nofun,.nil,fun _ _ => rfl,regular⟩
  | cons value values ih =>
    cases dests with
    | nil => cases room
    | cons d dests =>
      have stored := writeInt_stored regular d value
      have first := stored.retains
      obtain ⟨cells,h',written,distinct,unused,filled,retains⟩ := ih first.regular (Nat.le_of_succ_le_succ room)
      have holds : (d.writeInt h value).2.2.content? (d.writeInt h value).1 = some (.int value) := by
        rw [content?,stored.objects,Function.update_self]
        rfl
      have apart {cell : Nat} (member : cell ∈ cells) :
          ¬ (d.writeInt h value).2.2.isLive cell = true := Bool.eq_false_iff.mp (unused cell member)
      refine ⟨(d.writeInt h value).1 :: cells,h',?_,nodup_cons.mpr ⟨fun member => ?_,distinct⟩,
        forall_mem_cons.mpr ⟨stored.fresh,fun cell member => ?_⟩,
        .cons (retains.content holds) filled,first.trans retains⟩
      · rw [writeEach]
        dsimp only
        rw [written]
        rfl
      · exact apart member (live_of_content holds)
      · exact Bool.eq_false_iff.mpr fun live => apart member (first.live live)

/-- Whatever direct actions came before, mapping a list writes the images of its integers to distinct cells that
were not in use, and the list reads as before. With too few destinations nothing is written. -/
theorem mapInto_preserves (options : Options) {actions : List Action}
    (direct : ∀ a ∈ actions, a.isDirect = true) {list : Option Nat} {values : List Int64}
    (listed : ((start options).run actions).heap.Lists list values) (f : Int64 → Int64)
    (dests : List Destination) :
    let h := ((start options).run actions).heap
    (values.length ≤ dests.length → ∃ (cells : List Nat) (h' : Heap), mapInto h list f dests = .ok (values.length,
        zipWith holding dests cells ++ dests.drop values.length,h') ∧
      cells.Nodup ∧ (∀ cell ∈ cells, h.isLive cell = false) ∧
      Forall₂ (fun cell value => h'.int? cell = some (f value)) cells values ∧
      h'.ints list = values) ∧
    (dests.length < values.length → ∃ e, mapInto h list f dests = .error e ∧ e.kind = .memory) := by
  intro h
  have regular : Regular h := direct_regular options direct
  unfold mapInto
  rw [listed.ints]
  dsimp only
  constructor
  · intro room
    obtain ⟨cells,h',written,distinct,unused,filled,retains⟩ :=
      writeEach_fills regular ((length_map f).trans_le room)
    rw [length_map] at written
    refine ⟨cells,h',?_,distinct,unused,?_,(listed.retained retains).ints⟩
    · rw [if_neg room.not_gt,written]
    · refine (forall₂_map_right_iff.mp filled).imp fun cell value holds => ?_
      rw [int?,← content?,holds]
  · intro short
    rw [if_pos short]
    exact ⟨_,rfl,rfl⟩

def afterRelease : Memory := (start { poolSize := 1 }).run
  [.newInt 9,.newInt 6,.newPair (some 2) none,.newInt 5,.newPair (some 4) (some 3),.freeTree 1]

def poolFirst : List Destination := [⟨none,true⟩,⟨none,false⟩,⟨none,false⟩]

/-- One value goes to the pool, the other to the cell that was given back. -/
theorem afterRelease_preserved : afterRelease.heap.Lists (some 5) [5,6] ∧
    ∃ cells h', mapInto afterRelease.heap (some 5) (· * 2) poolFirst =
        .ok (2,zipWith holding poolFirst cells ++ poolFirst.drop 2,h') ∧
      cells.Nodup ∧ h'.ints (some 5) = [5,6] := by
  have listed : afterRelease.heap.Lists (some 5) [5,6] :=
    @Lists.cons _ 5 4 (some 3) 5 [6] rfl rfl (@Lists.cons _ 3 2 none 6 [] rfl rfl .nil)
  obtain ⟨cells,h',written,distinct,-,-,same⟩ :=
    (mapInto_preserves { poolSize := 1 } (by decide) listed (· * 2) poolFirst).1 (by decide)
  exact ⟨listed,cells,h',written,distinct,same⟩

end Destination

end StagedLisp
