import StagedLisp.Store

/-! Application of procedures. Evaluation is written with the evaluator of subexpressions as an
argument, so that each rule stands alone; `Eval.Basic` ties the knot. -/
namespace StagedLisp

abbrev Evaluator := Nat → Value → Eval Value

def Evaluator.each (eval : Evaluator) (level : Nat) : List Value → Eval (List Value)
  | [] => return []
  | expr :: rest => do
    let value ← eval level expr
    return value :: (← each eval level rest)

namespace Eval

/-- Applies a procedure. A body runs in a scope of the caller's level over the procedure's own
environment; parameters and operands are paired as far as both go. -/
def applyTo (body : Evaluator) (caller : Nat) (procedure : Value) (args : List Value) : Eval Value :=
  match procedure with
  | .prim op => primitive op args
  | .closure _ params expr env => do
    let env ← extendAll env (params.zip args)
    let inner ← scope caller env
    (body inner expr).adapt (·.leaving expr)
  | other => fault (.notProcedure other)

/-- Follows the rule in force: the native one, or a procedure that gets the expression as data. -/
def dispatch (rule : Rule) (native : Eval Value) (reflected : Evaluator) (level : Nat)
    (expr : Value) : Eval Value := do
  match (← Eval.level level).handlers.get rule with
  | .native => native
  | .reflected procedure => applyTo reflected (← parent level) procedure [expr]

end Eval

end StagedLisp
