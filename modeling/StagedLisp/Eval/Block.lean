import StagedLisp.Eval.Apply
import StagedLisp.Release.Block

/-! Let forms. As soon as the value of one binding is a fragment the form is compiled: bindings are
then referred to by name, and the form becomes a block of the generated program. -/
namespace StagedLisp.Eval

def compileBlock (eval : Evaluator) (form : LetForm) (values : List Value) (scope : Nat) : Eval Value := do
  let options := (← get).options
  let analysis := Analysis.ofForm form (← level scope).known options
  recordShapes scope analysis.bindingShapes
  let plans := Plans.ofForm form values analysis options
  setReleases scope plans.branchReleases
  let body ← eval scope form.body
  return .code (← ofResult (plans.emit form.kind body))

/-- Binds again, by name, what has been bound so far. -/
def refer (scope : Nat) : List (String × Value) → Eval Unit
  | [] => return ()
  | (name,value) :: rest => do
    if value.isMaterial then define scope name (← reference name)
    refer scope rest

/-- Evaluates and binds one binding after the other. Yields the values, and whether the form is to
be compiled. -/
def bindEach (eval : Evaluator) (scope : Nat) (done : List (String × Value)) (staged : Bool) :
    List Binding → Eval (List Value × Bool)
  | [] => return (done.map Prod.snd,staged)
  | b :: rest => do
    let value ← eval scope b.init
    if value.isCode && !staged then refer scope done
    let staged := staged || value.isCode
    let bound ← if staged && value.isMaterial then reference b.name else pure value
    define scope b.name bound
    bindEach eval scope (done ++ [(b.name,value)]) staged rest

def plainLet (eval : Evaluator) (form : LetForm) (level : Nat) (staged : Bool) : Eval Value := do
  let scope ← scope level (← Eval.level level).env
  let (values,staged) ← bindEach eval scope [] staged form.bindings
  if staged then compileBlock eval form values scope
  else eval scope form.body

def assignEach (env : Env) : List (String × Value) → Eval Unit
  | [] => return ()
  | (name,value) :: rest => do
    discard (assign env name value)
    assignEach env rest

def referEach (env : Env) : List Binding → Eval Env
  | [] => return env
  | b :: rest => do
    let env ← extend env b.name (← reference b.name)
    referEach env rest

def compileRecursive (eval : Evaluator) (form : LetForm) (level : Nat) : Eval Value := do
  let env ← referEach (← Eval.level level).env form.bindings
  let scope ← scope level env
  let values ← eval.each scope (form.bindings.map Binding.init)
  compileBlock eval form values scope

/-- The initialisers of a recursive form see empty slots first. If one of their values is a fragment
they are evaluated once more, with the bindings referred to by name. -/
def recursiveLet (eval : Evaluator) (form : LetForm) (level : Nat) : Eval Value := do
  let env ← extendAll (← Eval.level level).env (form.names.map fun name => (name,.nil))
  let scope ← scope level env
  let values ← eval.each scope (form.bindings.map Binding.init)
  if values.any Value.isCode then compileRecursive eval form level
  else
    assignEach env (form.names.zip values)
    eval scope form.body

end StagedLisp.Eval
