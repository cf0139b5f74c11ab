import Mathlib.Data.List.Infix
import StagedLisp.Support.Helpers

/-! The routines that primitives become in the generated program, as trees: their text stands in the
support library, and they compute over exact integers and cons trees. Reading a field that the object
does not have is undefined. -/
namespace StagedLisp.Support

/-- What an object of the generated program holds, with all that hangs on it. -/
inductive Contents where
  | null
  | int (value : Int)
  | pair (head tail : Contents)
deriving DecidableEq, Repr

inductive Operator where
  | add | sub | mul | div | rem | lt | gt | le | ge | eq | ne
deriving DecidableEq, Repr

def Operator.text : Operator → String
  | add => "+"
  | sub => "-"
  | mul => "*"
  | div => "/"
  | rem => "%"
  | lt => "<"
  | gt => ">"
  | le => "<="
  | ge => ">="
  | eq => "=="
  | ne => "!="

def bit (b : Bool) : Int := if b then 1 else 0

/-- Division goes toward zero, and is undefined by zero. -/
def Operator.apply : Operator → Int → Int → Option Int
  | add, a, b => some (a + b)
  | sub, a, b => some (a - b)
  | mul, a, b => some (a * b)
  | div, a, b => if b = 0 then none else some (a.tdiv b)
  | rem, a, b => if b = 0 then none else some (a.tmod b)
  | lt, a, b => some (bit (a < b))
  | gt, a, b => some (bit (a > b))
  | le, a, b => some (bit (a ≤ b))
  | ge, a, b => some (bit (a ≥ b))
  | eq, a, b => some (bit (a = b))
  | ne, a, b => some (bit (a ≠ b))

/-- A number, computed from the parameters of a routine. -/
inductive Expression where
  | literal (n : Int)
  /-- A parameter as a truth value. -/
  | given (param : String)
  | isNull (param : String)
  | notNull (param : String)
  | isPair (param : String)
  | value (param : String)
  /-- A routine with a number for its result. -/
  | call (routine param : String)
  | binary (op : Operator) (left right : Expression)
  | not (operand : Expression)
  | and (left right : Expression)
  | or (left right : Expression)
  | choice (test yes no : Expression)
  | group (inner : Expression)

namespace Expression

def text : Expression → String
  | literal n => toString n
  | given param => param
  | isNull param => param ++ " == NULL"
  | notNull param => param ++ " != NULL"
  | isPair param => param ++ "->is_pair"
  | value param => param ++ "->i"
  | call routine param => routine ++ "(" ++ param ++ ")"
  | binary op left right => left.text ++ " " ++ op.text ++ " " ++ right.text
  | not operand => "!" ++ operand.text
  | and left right => left.text ++ " && " ++ right.text
  | or left right => left.text ++ " || " ++ right.text
  | choice test yes no => test.text ++ " ? " ++ yes.text ++ " : " ++ no.text
  | group inner => "(" ++ inner.text ++ ")"

/-- The value, where `calls` gives the results of calls and `scope` the parameters. The right side of
a connective is looked at only if the left one does not decide. -/
def eval (calls : String → Contents → Option Int) (scope : String → Option Contents) : Expression → Option Int
  | literal n => some n
  | given param | notNull param => (scope param).map fun o => bit (o ≠ .null)
  | isNull param => (scope param).map fun o => bit (o = .null)
  | isPair param => (scope param).bind fun
    | .null => none
    | .int _ => some 0
    | .pair _ _ => some 1
  | value param => (scope param).bind fun
    | .int n => some n
    | _ => none
  | call routine param => (scope param).bind (calls routine)
  | binary op left right =>
    (left.eval calls scope).bind fun a => (right.eval calls scope).bind fun b => op.apply a b
  | not operand => (operand.eval calls scope).map fun a => bit (a = 0)
  | and left right =>
    (left.eval calls scope).bind fun a =>
      if a = 0 then some 0 else (right.eval calls scope).map fun b => bit (b ≠ 0)
  | or left right =>
    (left.eval calls scope).bind fun a =>
      if a = 0 then (right.eval calls scope).map fun b => bit (b ≠ 0) else some 1
  | choice test yes no =>
    (test.eval calls scope).bind fun a =>
      if a = 0 then no.eval calls scope else yes.eval calls scope
  | group inner => inner.eval calls scope

end Expression

/-- A routine from an object to a number. -/
structure Scalar where
  type : String
  name : String
  body : Expression

def Scalar.lines (s : Scalar) : List String := [
  "static " ++ s.type ++ " " ++ s.name ++ "(Obj* x) \x7b",
  "    return " ++ s.body.text ++ ";",
  "\x7d"]

def scalars : List Scalar := [
  ⟨"long","int_of",
    .choice (.group (.and (.given "x") (.not (.isPair "x")))) (.value "x") (.literal 0)⟩,
  ⟨"int","is_true",
    .and (.given "x") (.group (.or (.isPair "x") (.binary .ne (.value "x") (.literal 0))))⟩]

def callScalar (name : String) (o : Contents) : Option Int :=
  (scalars.find? (·.name == name)).bind fun s =>
    s.body.eval (fun _ _ => none) fun param => if param = "x" then some o else none

inductive Returned where
  | int (value : Expression)
  | null
  | head (param : String)
  | tail (param : String)

def Returned.text : Returned → String
  | int value => "mk_int(" ++ value.text ++ ")"
  | null => "NULL"
  | head param => param ++ "->a"
  | tail param => param ++ "->b"

def Returned.eval (scope : String → Option Contents) : Returned → Option Contents
  | int value => (value.eval callScalar scope).map .int
  | null => some .null
  | head param => (scope param).bind fun
    | .pair a _ => some a
    | _ => none
  | tail param => (scope param).bind fun
    | .pair _ b => some b
    | _ => none

/-- A complaint about the operands, and what is returned with it. -/
structure Guard where
  test : Expression
  complaint : String
  returned : Returned

/-- A routine from objects to an object. -/
structure Routine where
  name : String
  params : List String
  guard : Option Guard := none
  returned : Returned

namespace Routine

def heading (r : Routine) : String :=
  "static Obj* " ++ r.name ++ "(" ++ ", ".intercalate (r.params.map ("Obj* " ++ ·)) ++ ") \x7b"

def lines (r : Routine) : List String :=
  match r.guard with
  | none => [r.heading ++ " return " ++ r.returned.text ++ "; \x7d"]
  | some g => [r.heading,
    "    if (" ++ g.test.text ++ ") \x7b",
    "        fprintf(stderr, \"" ++ g.complaint ++ "\\n\");",
    "        return " ++ g.returned.text ++ ";",
    "    \x7d",
    "    return " ++ r.returned.text ++ ";",
    "\x7d"]

def run (r : Routine) (args : List Contents) : Option Contents :=
  let scope (param : String) : Option Contents := (r.params.zip args).lookup param
  match r.guard with
  | none => r.returned.eval scope
  | some g => (g.test.eval callScalar scope).bind fun a =>
      if a = 0 then r.returned.eval scope else g.returned.eval scope

/-- The routine of an operator on two integers. -/
def arithmetic (name : String) (op : Operator) : Routine where
  name
  params := ["a","b"]
  returned := .int (.binary op (.call "int_of" "a") (.call "int_of" "b"))

/-- The routine of an operator that refuses zero on the right. -/
def division (name : String) (op : Operator) : Routine :=
  { arithmetic name op with
    guard := some ⟨.binary .eq (.call "int_of" "b") (.literal 0),"division by zero",
      .int (.literal 0)⟩ }

def test (name : String) (result : Expression) : Routine where
  name
  params := ["a"]
  returned := .int result

def part (name : String) (returned : Returned) : Routine where
  name
  params := ["x"]
  guard := some ⟨.or (.not (.given "x")) (.not (.isPair "x")),name ++ " of non-cons",.null⟩
  returned

end Routine

def routines : List Routine := [
  .arithmetic "add" .add,.arithmetic "sub" .sub,.arithmetic "mul" .mul,
  .division "div_op" .div,.division "mod_op" .rem,
  .arithmetic "lt_op" .lt,.arithmetic "gt_op" .gt,.arithmetic "le_op" .le,
  .arithmetic "ge_op" .ge,.arithmetic "num_eq" .eq,
  .test "not_op" (.not (.call "is_true" "a")),
  .test "is_nil" (.isNull "a"),
  .test "is_pair" (.and (.notNull "a") (.isPair "a")),
  .part "car" (.head "x"),.part "cdr" (.tail "x")]

/-- Every routine stands in the support library as it is written here. -/
theorem routines_listed : (∀ s ∈ scalars, s.lines <:+: helpers) ∧ ∀ r ∈ routines, r.lines <:+: helpers := by
  decide +kernel

/-- The result of calling a routine by its name. -/
def call? (name : String) (args : List Contents) : Option Contents :=
  (routines.find? (·.name == name)).bind (·.run args)

namespace Contents

def number : Contents → Int
  | int n => n
  | _ => 0

def isTrue : Contents → Bool
  | null => false
  | int n => n ≠ 0
  | pair _ _ => true

end Contents

theorem callScalar_int_of (o : Contents) : callScalar "int_of" o = some o.number := by
  cases o <;> rfl

theorem callScalar_is_true (o : Contents) : callScalar "is_true" o = some (bit o.isTrue) := by
  cases o with
  | int n => by_cases zero : n = 0 <;>
      simp [callScalar,scalars,Expression.eval,Operator.apply,Contents.isTrue,bit,zero]
  | _ => rfl

namespace Routine

theorem arithmetic_run (name : String) (op : Operator) (a b : Contents) :
    (arithmetic name op).run [a,b] = (op.apply a.number b.number).map .int := by
  simp [run,arithmetic,Returned.eval,Expression.eval,callScalar_int_of,List.lookup_cons]

theorem division_run (name : String) (op : Operator) (a b : Contents) (other : b.number ≠ 0) :
    (division name op).run [a,b] = (op.apply a.number b.number).map .int := by
  simp [run,division,arithmetic,Returned.eval,Expression.eval,callScalar_int_of,List.lookup_cons,
    Operator.apply,bit,other]

end Routine

end StagedLisp.Support
