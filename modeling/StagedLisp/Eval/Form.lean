import StagedLisp.Eval.Block

/-! Rules for the forms of the language. `eval` evaluates subexpressions. -/
namespace StagedLisp.Eval

def variableRule (level : Nat) (expr : Value) : Eval Value := do
  match expr.symbol? with
  | none => fault (.notVariable expr)
  | some name =>
    match ← value? (← Eval.level level).env name with
    | some value => return value
    | none => fault (.unbound name)

def callRule (eval : Evaluator) (level : Nat) (expr : Value) : Eval Value := do
  match expr.items? with
  | none => fault (.improperCall expr)
  | some [] => fault .emptyCall
  | some (operator :: operands) =>
    let procedure ← eval level operator
    let args ← eval.each level operands
    applyTo eval level procedure args

/-- The releases of bindings that die on entry to a branch come before its value. -/
def withDrops (level : Nat) (expr : Value) (branch : Nat) (code : Code) : Eval Code := do
  match expr.cell? with
  | none => return code
  | some site =>
    match (← Eval.level level).drops site branch with
    | [] => return code
    | drops => return .dropping drops code

def parts (expr : Value) : Result (List Value) :=
  match expr.tail?.bind Value.items? with
  | some parts => .ok parts
  | none => fail (.malformed expr)

/-- A condition that is a fragment makes the whole conditional a fragment, and both branches are
evaluated. -/
def conditional (eval : Evaluator) (level : Nat) (expr test onTrue : Value)
    (onFalse : Option Value) : Eval Value := do
  let otherwise : Eval Value := match onFalse with
    | some expr => eval level expr
    | none => return .nil
  match ← eval level test with
  | .code test =>
    let onTrue ← ofResult (← eval level onTrue).lift
    let onFalse ← ofResult (← otherwise).lift
    let onTrue ← withDrops level expr 0 onTrue
    let onFalse ← withDrops level expr 1 onFalse
    return .code (.conditional test onTrue onFalse)
  | value => if value.truthy then eval level onTrue else otherwise

def ifRule (eval : Evaluator) (level : Nat) (expr : Value) : Eval Value := do
  match ← ofResult (parts expr) with
  | [test,onTrue,onFalse] => conditional eval level expr test onTrue (some onFalse)
  | [test,onTrue] => conditional eval level expr test onTrue none
  | parts => fault (.partCount 3 parts.length expr.text)

def letRule (eval : Evaluator) (level : Nat) (expr : Value) : Eval Value := do
  plainLet eval (← ofResult (LetForm.ofValue expr)) level false

def onePart (form : String) (parts : List Value) : Result Value :=
  match parts with
  | [part] => .ok part
  | _ => fail (.partCount 1 parts.length form)

def twoParts (form : String) (parts : List Value) : Result (Value × Value) :=
  match parts with
  | [first,second] => .ok (first,second)
  | _ => fail (.partCount 2 parts.length form)

/-- Values become fragments while staging, and stay as they are otherwise. -/
def liftForm (eval : Evaluator) (level : Nat) (parts : List Value) : Eval Value := do
  let value ← eval level (← ofResult (onePart "lift" parts))
  if !(← Eval.level level).staging || value.isCode then return value
  return .code (← ofResult value.lift)

def params (read : List String) : List Value → Result (List String)
  | [] => .ok read
  | .sym name :: rest =>
    if read.contains name then fail (.duplicateParam name) else params (read ++ [name]) rest
  | _ :: _ => fail .paramNotSymbol

def lambdaForm (level : Nat) (parts : List Value) : Eval Value := do
  let (list,body) ← ofResult (twoParts "lambda" parts)
  match list.items? with
  | none => fault .paramsNotList
  | some items =>
    let params ← ofResult (params [] items)
    return .closure (← fresh) params body (← Eval.level level).env

def metaForm (eval : Evaluator) (level : Nat) (parts : List Value) : Eval Value := do
  let expr ← ofResult (onePart "EM" parts)
  eval (← parent level) expr

def isProcedure : Value → Bool
  | .closure _ _ _ _ | .prim _ => true
  | _ => false

/-- Replaces the rule of that name, or binds the name if there is no such rule. -/
def setMetaForm (eval : Evaluator) (level : Nat) (parts : List Value) : Eval Value := do
  let (target,expr) ← ofResult (twoParts "set-meta!" parts)
  match target with
  | .sym name =>
    match Rule.ofName? name with
    | some rule =>
      if expr.symbol? = some "default" then setHandler level rule .native
      else
        let procedure ← eval level expr
        if isProcedure procedure then setHandler level rule (.reflected procedure)
        else fault (.notHandler procedure)
    | none => define level name (← eval level expr)
    return target
  | _ => fault (.notMetaTarget target)

/-- A scan of a registered record or, without a type, of cells. -/
def scanForm (eval : Evaluator) (level : Nat) (parts : List Value) : Eval Value := do
  match parts with
  | [.sym name,expr] =>
    if (← get).registry.contains name then
      return .code (.call1 ("scan_" ++ Code.identifier name)
        (← ofResult (← eval level expr).lift))
    else fault (.unknownRecord name)
  | [expr] => return .code (.call1 "scan_obj" (← ofResult (← eval level expr).lift))
  | _ => fault (.partCount 2 parts.length "scan")

def letrecForm (eval : Evaluator) (level : Nat) (parts : List Value) : Eval Value := do
  recursiveLet eval (← ofResult (LetForm.ofParts .recursive parts)) level

/-- Assignment to a compiled binding, or of a fragment, is left to the generated program. -/
def setForm (eval : Evaluator) (level : Nat) (parts : List Value) : Eval Value := do
  let (target,expr) ← ofResult (twoParts "set!" parts)
  match target with
  | .sym name =>
    let value ← eval level expr
    let env := (← Eval.level level).env
    match ← value? env name with
    | none => fault (.unbound name)
    | some (.code place) => return .code (.assign place (← ofResult value.lift))
    | some _ =>
      match value with
      | .code fragment => return .code (.assign (.var (Code.identifier name)) fragment)
      | value =>
        discard (assign env name value)
        return value
  | _ => fault (.notAssignable target)

def runForm (eval : Evaluator) (level : Nat) (parts : List Value) : Eval Value := do
  let expr ← ofResult (onePart "run" parts)
  let inner ← scope level (← Eval.level level).env
  setStaging inner false
  eval inner expr

def deftypeForm (parts : List Value) : Eval Value := do
  match parts with
  | .sym name :: specs =>
    registerRecord name (← ofResult (specs.mapM Field.ofValue))
    return .sym name
  | _ => fault .recordUnnamed

def freezeForm (eval : Evaluator) (level : Nat) (parts : List Value) : Eval Value := do
  match ← eval level (← ofResult (onePart "freeze" parts)) with
  | .code fragment => return .code (.call1 "freeze_cyclic" fragment)
  | value => return value

def levelForm (level : Nat) (parts : List Value) : Eval Value :=
  match parts with
  | [] => return .level level
  | _ => fault (.partCount 0 parts.length "menv")

def fixedRule? (eval : Evaluator) (level : Nat) (keyword : String) : Option (List Value → Eval Value) :=
  match keyword with
  | "quote" => some fun parts => ofResult (onePart "quote" parts)
  | "lift" => some (liftForm eval level)
  | "lambda" => some (lambdaForm level)
  | "EM" => some (metaForm eval level)
  | "set-meta!" => some (setMetaForm eval level)
  | "scan" => some (scanForm eval level)
  | "letrec" => some (letrecForm eval level)
  | "set!" => some (setForm eval level)
  | "run" => some (runForm eval level)
  | "deftype" => some deftypeForm
  | "freeze" => some (freezeForm eval level)
  | "menv" => some (levelForm level)
  | _ => none

end StagedLisp.Eval
