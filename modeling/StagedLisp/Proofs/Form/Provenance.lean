import Mathlib.Data.List.Basic
import StagedLisp.Form.Provenance
import StagedLisp.Proofs.Form.View

/-! The names that the value of a form may come from, for calls of primitives, conditionals and
quotations. -/
namespace StagedLisp

theorem isScalarName_name (op : Primitive) : isScalarName op.name = op.isScalar := by
  cases op <;> decide

variable {args : List Value} {x : String} {e : Value} {select : Selection}

theorem mem_spineSelected {tail : Value} (listed : tail.items? = some args) (skip : Nat) :
    x ∈ spineSelected select skip tail ↔ ∃ a ∈ args.drop skip, x ∈ selected select a := by
  induction tail generalizing args skip with
  | nil =>
    cases listed
    cases skip <;> simp [spineSelected]
  | pair cell head tail _ ih =>
    obtain ⟨others,found,rfl⟩ := Option.map_eq_some_iff.mp listed
    cases skip with
    | zero =>
      rw [spineSelected,List.mem_append,ih found 0]
      simp [or_comm]
    | succ skip =>
      rw [spineSelected,ih found skip]
      simp
  | _ => cases listed

theorem mem_selected_form {first : Value} (items : e.formItems? = some (first :: args))
    {skip : Nat} (start : select (View.ofItems (first :: args)) = some (skip + 1)) :
    x ∈ selected select e ↔ ∃ a ∈ args.drop skip, x ∈ selected select a := by
  have view := View.of?_items items
  obtain ⟨cell,tail,rfl,listed⟩ := formItems_cons items
  rw [selected,view,Option.bind_some,start]
  exact mem_spineSelected listed skip

theorem mem_structureNames_call {op : Primitive}
    (items : e.formItems? = some (.sym op.name :: args)) (made : op.isScalar = false) :
    x ∈ structureNames e ↔ ∃ a ∈ args, x ∈ structureNames a := by
  have start : structureParts (View.ofItems (.sym op.name :: args)) = some (0 + 1) := by
    rw [View.ofItems_call,structureParts,isScalarName_name,made]
    rfl
  simpa [structureNames] using mem_selected_form (x := x) items start

theorem mem_structureNames_choice {test onTrue onFalse : Value}
    (items : e.formItems? = some [.sym "if",test,onTrue,onFalse]) :
    x ∈ structureNames e ↔ x ∈ structureNames onTrue ∨ x ∈ structureNames onFalse := by
  have parts : x ∈ structureNames e ↔ ∃ a ∈ [test,onTrue,onFalse].drop 1, x ∈ selected structureParts a :=
    mem_selected_form items rfl
  rw [parts]
  simp [structureNames]

end StagedLisp
