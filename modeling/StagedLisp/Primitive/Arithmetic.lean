import StagedLisp.Fault
import StagedLisp.Word

/-! Integer primitives. Results are exact: one that does not fit in 64 bits is an error. -/
namespace StagedLisp.Primitive

def exactly (operation : Overflow) (n : Int) : Result Int64 :=
  match Word.ofInt? n with
  | some n => .ok n
  | none => fail (.overflow operation)

def operand (op : Primitive) (v : Value) : Result Int64 :=
  match v.int? with
  | some n => .ok n
  | none => fail (.integerOperand op v)

/-- Folds from the left; each operand is checked when its turn comes. -/
def foldInts (op : Primitive) (operation : Overflow) (f : Int → Int → Int) : Int64 → List Value → Result Int64
  | acc, [] => .ok acc
  | acc, v :: rest =>
    match operand op v with
    | .error e => .error e
    | .ok n =>
      match exactly operation (f acc.toInt n.toInt) with
      | .error e => .error e
      | .ok acc => foldInts op operation f acc rest

def foldFirst (op : Primitive) (operation : Overflow) (f : Int → Int → Int) : List Value → Result Int64
  | [] => fail (.operandCount 1 0)
  | first :: rest =>
    match operand op first with
    | .error e => .error e
    | .ok acc => foldInts op operation f acc rest

def sum : List Value → Result Int64
  | [] => .ok 0
  | args => foldFirst add .addition (· + ·) args

def product (args : List Value) : Result Int64 := foldFirst mul .multiplication (· * ·) args

def difference : List Value → Result Int64
  | [only] =>
    match operand sub only with
    | .error e => .error e
    | .ok n => exactly .negation (-n.toInt)
  | args => foldFirst sub .subtraction (· - ·) args

/-- Division of the least integer by minus one is refused for the remainder too. -/
def divide (op : Primitive) (f : Int → Int → Int) (a b : Value) : Result Int64 :=
  match operand op a with
  | .error e => .error e
  | .ok a =>
    match operand op b with
    | .error e => .error e
    | .ok b =>
      if b = 0 then fail .divisionByZero
      else if a = Int64.minValue ∧ b = -1 then fail (.overflow .division)
      else .ok (.ofInt (f a.toInt b.toInt))

def compare (op : Primitive) (f : Int → Int → Bool) (a b : Value) : Result Bool :=
  match operand op a with
  | .error e => .error e
  | .ok a =>
    match operand op b with
    | .error e => .error e
    | .ok b => .ok (f a.toInt b.toInt)

end StagedLisp.Primitive
