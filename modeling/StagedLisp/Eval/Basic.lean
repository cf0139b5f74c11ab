import StagedLisp.Eval.Form

/-! Evaluation. The fuel is the number of evaluations that may still be nested. A subexpression or a
procedure body takes one of it, the body of a replaced rule two. -/
namespace StagedLisp

/-- Evaluates a form by the rule of its keyword; a form without one is a call. `eval` evaluates
subexpressions and `reflected` the bodies of replaced rules. -/
def evalForm (eval reflected : Evaluator) (level : Nat) (expr : Value) : Eval Value :=
  match expr.headSymbol? with
  | some "let" => Eval.dispatch .letForm (Eval.letRule eval level expr) reflected level expr
  | some "if" => Eval.dispatch .ifForm (Eval.ifRule eval level expr) reflected level expr
  | head =>
    match head.bind (Eval.fixedRule? eval level) with
    | some rule => do rule (← Eval.ofResult (Eval.parts expr))
    | none => Eval.dispatch .call (Eval.callRule eval level expr) reflected level expr

def evalStep (eval reflected : Evaluator) : Evaluator := fun level expr =>
  match expr with
  | .int _ | .nil => Eval.dispatch .literal (pure expr) reflected level expr
  | .sym _ => Eval.dispatch .symbol (Eval.variableRule level expr) reflected level expr
  | .pair _ _ _ => (evalForm eval reflected level expr).adapt (·.whileEvaluating expr)
  | _ => pure expr

def tooDeep : Evaluator := fun _ _ => Eval.fault .tooDeep

def eval : Nat → Evaluator
  | 0 => tooDeep
  | 1 => evalStep tooDeep tooDeep
  | fuel + 2 => evalStep (eval (fuel + 1)) (eval fuel)

def evaluate : Evaluator := eval depthLimit

/-- Compiles a let form, even if none of its bindings is a fragment. -/
def compile : Evaluator := fun level expr => do
  let form ← Eval.ofResult (LetForm.ofValue expr)
  match form.kind with
  | .plain => Eval.plainLet (eval (depthLimit - 1)) form level true
  | .recursive => Eval.compileRecursive (eval (depthLimit - 1)) form level

end StagedLisp
