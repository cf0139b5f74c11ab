import StagedLisp.Proofs.Eval.Frame
import StagedLisp.Proofs.Form.Unstaged
import StagedLisp.Proofs.Value.Like

/-! Values with unstaged bodies. Primitives do not look into the bodies of procedures, so they do
the same with such values. -/
namespace StagedLisp

namespace Value

/-- The value with the bodies of its procedures unstaged. -/
def cleared : Value → Value
  | pair cell head tail => pair cell head.cleared tail.cleared
  | closure id params body env => closure id params body.unstaged env
  | v => v

/-- Values that evaluation makes of expressions of the grammar where nothing is staged. -/
def IsCore (admits : Value → Prop) : Value → Prop
  | int _ | sym _ | nil | prim _ => True
  | pair _ head tail => head.IsCore admits ∧ tail.IsCore admits
  | closure _ _ body _ => CoreExpr admits body
  | code _ | level _ => False

variable {admits : Value → Prop} {v w : Value}

theorem IsCore.not_code (core : v.IsCore admits) : v.isCode = false := by
  cases v with
  | code => exact core.elim
  | _ => rfl

theorem IsCore.code?_eq_none (core : v.IsCore admits) : v.code? = none ∧ v.cleared.code? = none := by
  cases v with
  | code => exact core.elim
  | _ => exact ⟨rfl,rfl⟩

theorem any_isCode_eq_false {values : List Value} (each : ∀ v ∈ values, v.IsCore admits) :
    values.any isCode = false ∧ (values.map cleared).any isCode = false := by
  have plain : values.any isCode = false := by
    rw [List.any_eq_false]
    intro v member
    simp [(each v member).not_code]
  refine ⟨plain,?_⟩
  rw [List.any_map,← plain]
  congr 1
  funext v
  cases v <;> rfl

theorem isCore_of_datum (datum : v.isDatum) : v.IsCore admits := by
  induction v with
  | pair cell head tail ihHead ihTail =>
    obtain ⟨first,second⟩ := Bool.and_eq_true_iff.mp datum
    exact ⟨ihHead first,ihTail second⟩
  | int | sym | nil => trivial
  | _ => cases datum

theorem cleared_datum (datum : v.isDatum) : v.cleared = v := by
  induction v with
  | pair cell head tail ihHead ihTail =>
    obtain ⟨first,second⟩ := Bool.and_eq_true_iff.mp datum
    rw [cleared,ihHead first,ihTail second]
  | int | sym | nil => rfl
  | _ => cases datum

theorem cleared_truthy : v.cleared.truthy = v.truthy := by cases v <;> rfl

theorem cleared_isCode : v.cleared.isCode = v.isCode := by cases v <;> rfl

theorem cleared_texts (v : Value) : v.cleared.text = v.text ∧ v.cleared.tailText = v.tailText := by
  induction v with
  | pair _ _ _ ihHead ihTail => simp [cleared,text,tailText,ihHead.1,ihTail.2]
  | closure => simp [cleared,text,tailText]
  | _ => exact ⟨rfl,rfl⟩

def ClearsTo (admits : Value → Prop) (v w : Value) : Prop := w = v.cleared ∧ v.IsCore admits

theorem ClearsTo.congruence (admits : Value → Prop) : Congruence (ClearsTo admits) where
  kind {v _} clears := clears.1 ▸ by cases v <;> rfl
  text {v _} clears := clears.1 ▸ v.cleared_texts.1.symm
  int? {v _} clears := clears.1 ▸ by cases v <;> rfl
  truthy clears := clears.1 ▸ cleared_truthy.symm
  isNil {v _} clears := clears.1 ▸ by cases v <;> rfl
  cell? {v _} clears := clears.1 ▸ by cases v <;> rfl
  head? {v _} clears := by
    obtain ⟨rfl,core⟩ := clears
    cases v with
    | pair => exact .some ⟨rfl,core.1⟩
    | _ => exact .none
  tail? {v _} clears := by
    obtain ⟨rfl,core⟩ := clears
    cases v with
    | pair => exact .some ⟨rfl,core.2⟩
    | _ => exact .none
  identical {v _ v' _} clears clears' := by
    obtain ⟨⟨rfl,_⟩,⟨rfl,_⟩⟩ := And.intro clears clears'
    cases v <;> cases v' <;> rfl
  int _ := ⟨rfl,trivial⟩
  nil := ⟨rfl,trivial⟩
  pair cell head tail := ⟨by rw [head.1,tail.1]; rfl,head.2,tail.2⟩

end Value

theorem Primitive.apply_cleared {op : Primitive} {args : List Value} {next next' : Nat} {v : Value}
    {admits : Value → Prop} (each : ∀ a ∈ args, a.IsCore admits)
    (applied : op.apply args next = .ok (v,next')) :
    op.apply (args.map Value.cleared) next = .ok (v.cleared,next') ∧ v.IsCore admits := by
  obtain ⟨plain,plain'⟩ := Value.any_isCode_eq_false each
  obtain ⟨admitted,⟨_,reduced⟩ | ⟨code,_⟩⟩ := apply_cases applied
  · have clears : List.Forall₂ (Value.ClearsTo admits) args (args.map Value.cleared) :=
      List.forall₂_map_right_iff.mpr (List.forall₂_same.mpr fun a member => ⟨rfl,each a member⟩)
    have alike := (Value.ClearsTo.congruence admits).reduce op next clears
    generalize reduced' : op.reduce (args.map Value.cleared) next = result at alike
    rw [reduced] at alike
    cases alike with
    | @ok _ both same =>
    obtain ⟨w,next''⟩ := both
    obtain ⟨⟨rfl,core⟩,rfl⟩ := same
    refine ⟨?_,core⟩
    unfold apply
    rw [List.length_map,admitted,plain',reduced']
    rfl
  · rw [plain] at code
    cases code

end StagedLisp
