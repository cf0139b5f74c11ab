import Mathlib.Logic.Relation
import StagedLisp.Heap.Basic

/-! The live cells of a heap as a graph: a cell points to its live children. -/
namespace StagedLisp.Heap

variable {h : Heap} {id : Nat} {object : Object}

theorem isLive_iff : h.isLive id = true ↔ ∃ object, h.object? id = some object :=
  Option.isSome_iff_exists

theorem object?_eq (h : Heap) (id : Nat) : h.object? id = (h.cells[id]?).join := by
  rw [object?,Array.getD_eq_getD_getElem?]
  cases h.cells[id]? <;> rfl

theorem object_bound (found : h.object? id = some object) : id < h.cells.size := by
  rcases Nat.lt_or_ge id h.cells.size with inside | outside
  · exact inside
  · rw [object?_eq,Array.getElem?_eq_none outside] at found
    cases found

theorem isLive_bound (live : h.isLive id = true) : id < h.cells.size := by
  obtain ⟨object,found⟩ := isLive_iff.mp live
  exact object_bound found

def Points (h : Heap) (a b : Nat) : Prop := b ∈ h.children a ∧ h.isLive b = true

def Reaches (h : Heap) : Nat → Nat → Prop := Relation.ReflTransGen h.Points

theorem Reaches.live {a b : Nat} (reaches : h.Reaches a b) (live : h.isLive a = true) : h.isLive b = true := by
  cases reaches with
  | refl => exact live
  | tail _ edge => exact edge.2

end StagedLisp.Heap
