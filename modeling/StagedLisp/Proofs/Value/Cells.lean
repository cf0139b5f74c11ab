import Mathlib.Data.List.Nodup
import StagedLisp.Value.Basic

/-! The cells of a value. A cell is listed once for every path of heads and tails that leads to it,
so a value whose cells are distinct is a tree, as are the values of data. -/
namespace StagedLisp.Value

open List Option

/-- The cells of a value, once for every path to them. -/
def cells : Value → List Nat
  | pair cell head tail => cell :: (head.cells ++ tail.cells)
  | _ => []

variable {v : Value} {items : List Value}

theorem items_cells (list : v.items? = some items) : (items.flatMap cells).Sublist v.cells := by
  induction v generalizing items with
  | nil => cases list; exact .refl _
  | pair cell head tail _ ih =>
    rw [items?] at list
    obtain ⟨rest,found,rfl⟩ := map_eq_some_iff.mp list
    rw [flatMap_cons,cells]
    exact .cons _ ((List.Sublist.refl _).append (ih found))
  | _ => simp [items?] at list

theorem formItems_cells (form : v.formItems? = some items) :
    ∃ cell, v.cell? = some cell ∧ (cell :: items.flatMap cells).Sublist v.cells := by
  cases v with
  | pair cell head tail =>
    rw [formItems?,items?] at form
    obtain ⟨rest,found,rfl⟩ := map_eq_some_iff.mp form
    refine ⟨cell,rfl,?_⟩
    rw [flatMap_cons,cells]
    exact .cons_cons _ ((List.Sublist.refl _).append (items_cells found))
  | _ => simp [formItems?] at form

theorem ofDatum_cells (d : Datum) (next : Nat) : next ≤ (ofDatum d next).2 ∧ (ofDatum d next).1.cells.Nodup ∧
      ∀ cell ∈ (ofDatum d next).1.cells, next ≤ cell ∧ cell < (ofDatum d next).2 := by
  induction d generalizing next with
  | cons head tail ihHead ihTail =>
    obtain ⟨growsHead,nodupHead,boundHead⟩ := ihHead next
    obtain ⟨growsTail,nodupTail,boundTail⟩ := ihTail (ofDatum head next).2
    simp only [ofDatum,cells]
    refine ⟨by omega,?_,?_⟩
    · rw [nodup_cons,nodup_append]
      refine ⟨?_,nodupHead,nodupTail,?_⟩
      · intro member
        rcases mem_append.mp member with member | member
        · have := boundHead _ member; omega
        · have := boundTail _ member; omega
      · intro a memberHead b memberTail
        have := boundHead a memberHead
        have := boundTail b memberTail
        omega
    · intro cell member
      rcases mem_cons.mp member with rfl | member
      · omega
      · rcases mem_append.mp member with member | member
        · have := boundHead cell member; omega
        · have := boundTail cell member; omega
  | _ => simp [ofDatum,cells]

/-- A way from a pair to one of its parts. -/
inductive Turn where
  | head
  | tail
deriving DecidableEq, Repr

/-- The cell that a path leads to. -/
def cellAt : List Turn → Value → Option Nat
  | [], v => v.cell?
  | .head :: path, pair _ head _ => cellAt path head
  | .tail :: path, pair _ _ tail => cellAt path tail
  | _ :: _, _ => none

/-- Two different paths lead to the cell. -/
def Shares (v : Value) (c : Nat) : Prop :=
  ∃ p q, p ≠ q ∧ v.cellAt p = some c ∧ v.cellAt q = some c

/-- No cell is reached by two different paths. -/
def TreeShaped (v : Value) : Prop := ∀ c, ¬ v.Shares c

theorem cellAt_atom (atom : v.cell? = none) (path : List Turn) : v.cellAt path = none := by
  cases path with
  | nil => exact atom
  | cons turn path => cases v <;> cases turn <;> first | rfl | cases atom

theorem mem_cells {c : Nat} : c ∈ v.cells ↔ ∃ path, v.cellAt path = some c := by
  induction v with
  | pair cell head tail ihHead ihTail =>
    rw [cells,mem_cons,mem_append,ihHead,ihTail]
    constructor
    · rintro (rfl | ⟨path,found⟩ | ⟨path,found⟩)
      · exact ⟨[],rfl⟩
      · exact ⟨.head :: path,found⟩
      · exact ⟨.tail :: path,found⟩
    · rintro ⟨_ | ⟨turn,path⟩,found⟩
      · exact .inl (some.inj found).symm
      · cases turn with
        | head => exact .inr (.inl ⟨path,found⟩)
        | tail => exact .inr (.inr ⟨path,found⟩)
  | _ =>
    constructor
    · intro member
      cases member
    · rintro ⟨path,found⟩
      rw [cellAt_atom rfl] at found
      cases found

/-- A cell is listed as often as paths lead to it. -/
theorem shares_iff {c : Nat} : v.Shares c ↔ 2 ≤ v.cells.count c := by
  induction v with
  | pair cell head tail ihHead ihTail =>
    have inHead := (mem_cells (v := head) (c := c)).symm
    have inTail := (mem_cells (v := tail) (c := c)).symm
    rw [← count_pos_iff] at inHead inTail
    rw [cells,count_cons,count_append]
    constructor
    · rintro ⟨_ | ⟨turnP,p⟩,_ | ⟨turnQ,q⟩,different,atP,atQ⟩
      · exact absurd rfl different
      · have here : cell = c := some.inj atP
        cases turnQ with
        | head => have := inHead.mp ⟨q,atQ⟩; simp [here]; omega
        | tail => have := inTail.mp ⟨q,atQ⟩; simp [here]; omega
      · have here : cell = c := some.inj atQ
        cases turnP with
        | head => have := inHead.mp ⟨p,atP⟩; simp [here]; omega
        | tail => have := inTail.mp ⟨p,atP⟩; simp [here]; omega
      · cases turnP <;> cases turnQ
        · have := ihHead.mp ⟨p,q,fun same => different (same ▸ rfl),atP,atQ⟩
          omega
        · have := inHead.mp ⟨p,atP⟩
          have := inTail.mp ⟨q,atQ⟩
          omega
        · have := inTail.mp ⟨p,atP⟩
          have := inHead.mp ⟨q,atQ⟩
          omega
        · have := ihTail.mp ⟨p,q,fun same => different (same ▸ rfl),atP,atQ⟩
          omega
    · intro twice
      by_cases here : cell = c
      · rw [if_pos (beq_iff_eq.mpr here)] at twice
        rcases Nat.eq_zero_or_pos (head.cells.count c) with none | several
        · obtain ⟨path,found⟩ := inTail.mpr (by omega)
          exact ⟨[],.tail :: path,by simp,congrArg some here,found⟩
        · obtain ⟨path,found⟩ := inHead.mpr several
          exact ⟨[],.head :: path,by simp,congrArg some here,found⟩
      · rw [if_neg (by simpa using here)] at twice
        by_cases inBoth : 0 < head.cells.count c ∧ 0 < tail.cells.count c
        · obtain ⟨p,atP⟩ := inHead.mpr inBoth.1
          obtain ⟨q,atQ⟩ := inTail.mpr inBoth.2
          exact ⟨.head :: p,.tail :: q,by simp,atP,atQ⟩
        · by_cases double : 2 ≤ head.cells.count c
          · obtain ⟨p,q,different,atP,atQ⟩ := ihHead.mpr double
            exact ⟨.head :: p,.head :: q,by simpa using different,atP,atQ⟩
          · obtain ⟨p,q,different,atP,atQ⟩ := ihTail.mpr (by omega)
            exact ⟨.tail :: p,.tail :: q,by simpa using different,atP,atQ⟩
  | _ =>
    constructor
    · rintro ⟨p,_,_,atP,_⟩
      rw [cellAt_atom rfl] at atP
      cases atP
    · intro twice
      simp [cells] at twice

end StagedLisp.Value
