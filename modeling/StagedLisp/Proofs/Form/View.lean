import Mathlib.Order.Nat
import StagedLisp.Flow.Graph
import StagedLisp.Proofs.Value.Cells

/-! Which forms have which view. -/
namespace StagedLisp

variable {first e expr : Value} {rest : List Value}

theorem Value.items?_cons {v : Value} (items : v.items? = some (first :: rest)) :
    ∃ cell tail, v = .pair cell first tail ∧ tail.items? = some rest := by
  cases v with
  | pair cell head tail =>
    obtain ⟨others,found,same⟩ := Option.map_eq_some_iff.mp items
    cases same
    exact ⟨cell,tail,rfl,found⟩
  | _ => cases items

theorem formItems_cons (items : e.formItems? = some (first :: rest)) :
    ∃ cell tail, e = .pair cell first tail ∧ tail.items? = some rest := by
  cases e with
  | pair => exact Value.items?_cons items
  | _ => cases items

theorem Primitive.name_inj {a b : Primitive} (same : a.name = b.name) : a = b := by
  have read (op : Primitive) : ofName? op.name = some op := by cases op <;> decide
  exact Option.some.inj ((read a).symm.trans (same ▸ read b))

theorem Primitive.name_not_keyword (op : Primitive) : isKeyword op.name = false := by
  cases op <;> decide

namespace View

theorem ofItems_call (op : Primitive) (args : List Value) :
    ofItems (.sym op.name :: args) = .call (.sym op.name) args := by
  cases op <;> rfl

variable {items : List Value}

theorem of?_items (listed : e.formItems? = some items) : of? e = some (ofItems items) := by
  rw [of?,listed]
  rfl

variable {branches : List Value} {test : Value}

def Shows : View → List Value → Prop
  | lambda _ body,items => ∃ list, items = [.sym "lambda",list,body]
  | binding inner,items => ∃ kind parts, items = .sym (LetKind.keyword kind) :: parts ∧
      LetForm.ofParts kind parts = .ok inner
  | conditional test branches,items => items = .sym "if" :: test :: branches
  | assign target value,items => items = [.sym "set!",target,value]
  | wrapper keyword operand,items => items = [.sym keyword,operand]
  | misfit keyword parts,items => items = .sym keyword :: parts
  | _,_ => True

theorem ofItems_shows {view : View} (shown : ofItems items = view) : view.Shows items := by
  subst shown
  unfold ofItems
  split
  · unfold ofKeyword
    split
    all_goals (try split)
    all_goals first
      | trivial
      | rfl
      | exact ⟨_,rfl⟩
      | exact ⟨.plain,_,rfl,by assumption⟩
      | exact ⟨.recursive,_,rfl,by assumption⟩
  · trivial
  · trivial

theorem of?_conditional (shown : of? expr = some (.conditional test branches)) :
    expr.formItems? = some (.sym "if" :: test :: branches) := by
  obtain ⟨items,found,view⟩ := Option.map_eq_some_iff.mp shown
  obtain rfl := ofItems_shows view
  exact found

end View

namespace Flow

theorem conditional_items {test onTrue : Value} {onFalse : Option Value}
    (shown : conditional? expr = some (test,onTrue,onFalse)) :
    expr.formItems? = some (.sym "if" :: test :: onTrue :: onFalse.toList) := by
  unfold conditional? at shown
  split at shown
  · next found =>
    cases shown
    exact View.of?_conditional found
  · next found =>
    cases shown
    exact View.of?_conditional found
  · cases shown

end Flow

end StagedLisp
