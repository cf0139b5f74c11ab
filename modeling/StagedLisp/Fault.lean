import StagedLisp.Value.Printer
import StagedLisp.Reader.Rejection

/-! What can go wrong. A fault is a cause; an error is a fault with the places it passed through on
its way out. All wording is in this module. -/
namespace StagedLisp

inductive LetKind where
  | plain
  | recursive
deriving DecidableEq, Repr

def LetKind.keyword : LetKind → String
  | plain => "let"
  | recursive => "letrec"

inductive Overflow where
  | addition
  | subtraction
  | multiplication
  | negation
  | division
deriving DecidableEq, Repr

def Overflow.name : Overflow → String
  | addition => "addition"
  | subtraction => "subtraction"
  | multiplication => "multiplication"
  | negation => "negation"
  | division => "division"

def depthLimit : Nat := 200

inductive FaultKind where
  | unreadable
  | unbound
  | mismatch
  | arity
  | evaluation
  | memory
deriving DecidableEq, Repr

inductive Fault where
  | unreadable (report : Reader.Report)
  | unbound (name : String)
  | operandCount (expected got : Nat)
  | partCount (expected got : Nat) (form : String)
  | notInteger (value : Value)
  | integerOperand (op : Primitive) (value : Value)
  | notPair (op : Primitive) (value : Value)
  | notLiftable (value : Value)
  | notLetForm (value : Value)
  | bindingsNotList (kind : LetKind)
  | notBinding (kind : LetKind) (entry : Value)
  | notVariable (value : Value)
  | notProcedure (value : Value)
  | paramsNotList
  | paramNotSymbol
  | notMetaTarget (value : Value)
  | notHandler (value : Value)
  | notAssignable (value : Value)
  | recordUnnamed
  | notField (spec : Value)
  | unknownStrength (name : String)
  | malformed (form : Value)
  | duplicateBinding (kind : LetKind) (name : String)
  | tooDeep
  | improperCall (form : Value)
  | emptyCall
  | duplicateParam (name : String)
  | unknownRecord (name : String)
  | duplicateField (record field : String)
  | overflow (operation : Overflow)
  | divisionByZero
  | destinations (given needed : Nat)

namespace Fault

def kind : Fault → FaultKind
  | unreadable _ => .unreadable
  | unbound _ => .unbound
  | operandCount _ _ | partCount _ _ _ => .arity
  | malformed _ | duplicateBinding _ _ | tooDeep | improperCall _ | emptyCall | duplicateParam _
  | unknownRecord _ | duplicateField _ _ | overflow _ | divisionByZero => .evaluation
  | destinations _ _ => .memory
  | _ => .mismatch

def detail : Fault → String
  | unreadable report => report.text
  | unbound name => name
  | operandCount expected got =>
    s!"function expected {expected} arguments but got {got}"
  | partCount expected got form =>
    s!"expression {form}: expected {expected} arguments, got {got}"
  | notInteger value => "expected integer, got " ++ value.kind
  | integerOperand op value =>
    "'" ++ op.name ++ "' expects integer arguments, got " ++ value.kind ++ " " ++ value.text
  | notPair op value => op.name ++ " of non-cons " ++ value.text
  | notLiftable value => "cannot lift " ++ value.kind ++ " " ++ value.text ++ " into code"
  | notLetForm value => "expected a let form, got " ++ value.text
  | bindingsNotList kind => kind.keyword ++ " bindings must be a list"
  | notBinding kind entry => kind.keyword ++ " binding must be (name expr), got " ++ entry.text
  | notVariable value => "variable handler given non-symbol " ++ value.text
  | notProcedure value => "Cannot apply non-function: " ++ value.text
  | paramsNotList => "Lambda parameters must be a list"
  | paramNotSymbol => "Lambda parameters must be symbols"
  | notMetaTarget value => "set-meta! expects a slot or name, got " ++ value.text
  | notHandler value => "set-meta! handler must be a procedure, got " ++ value.text
  | notAssignable value => "set! target must be a symbol, got " ++ value.text
  | recordUnnamed => "deftype expects a type name"
  | notField spec => "field must be (name type [strength]), got " ++ spec.text
  | unknownStrength name => "unknown field strength: " ++ name
  | malformed form => "Malformed expression: " ++ form.text
  | duplicateBinding kind name => "Duplicate binding name in " ++ kind.keyword ++ ": " ++ name
  | tooDeep => s!"Evaluation depth limit exceeded (max: {depthLimit})"
  | improperCall form => "Cannot apply improper list: " ++ form.text
  | emptyCall => "Cannot evaluate empty list"
  | duplicateParam name => "Duplicate parameter name: " ++ name
  | unknownRecord name => "scan: unknown type " ++ name
  | duplicateField record field => "deftype " ++ record ++ ": duplicate field " ++ field
  | overflow operation => "Integer overflow in " ++ operation.name
  | divisionByZero => "Division by zero"
  | destinations given needed =>
    s!"map_dps: {given} destinations for {needed} elements"

end Fault

def FaultKind.label : FaultKind → String
  | unreadable => "ParseError: "
  | unbound => "Unbound symbol: "
  | mismatch => "Type mismatch: "
  | arity => "ArityError: "
  | evaluation => "EvaluationError: "
  | memory => "Out of memory: "

inductive Place where
  | evaluating (form : Value)
  | inBody (body : Value)

def contextMark : String := "\n  Context:"

def Place.text : Place → String
  | evaluating form => contextMark ++ " while evaluating: " ++ form.text
  | inBody body => "\n  In lambda: " ++ body.text

structure Error where
  fault : Fault
  places : List Place := []

namespace Error

def kind (e : Error) : FaultKind := e.fault.kind

def detail (e : Error) : String := e.fault.detail ++ String.join (e.places.map Place.text)

def message (e : Error) : String := e.kind.label ++ e.detail

def through (e : Error) (place : Place) : Error := { e with places := e.places ++ [place] }

/-- Evaluation and type errors name the innermost form they come from, once. -/
def whileEvaluating (e : Error) (form : Value) : Error :=
  if (e.kind = .evaluation ∨ e.kind = .mismatch) ∧ ¬ Text.contains e.detail contextMark then
    e.through (.evaluating form)
  else e

/-- Evaluation errors name every procedure body they leave. -/
def leaving (e : Error) (body : Value) : Error :=
  if e.kind = .evaluation then e.through (.inBody body) else e

end Error

instance : Coe Fault Error := ⟨fun fault => ⟨fault,[]⟩⟩

abbrev Result := Except Error

def fail (fault : Fault) : Result α := .error ⟨fault,[]⟩

end StagedLisp
