import StagedLisp.Form.Names

/-! Lifting: the expression of the generated program that builds a value. -/
namespace StagedLisp.Value

def canLift : Value → Bool
  | int _ | nil | code _ | closure _ _ _ _ => true
  | pair _ head tail => head.canLift && tail.canLift
  | sym _ | prim _ | level _ => false

/-- The names a procedure takes from around it, primitives apart. -/
def capturedNames (params : List String) (body : Value) : List String :=
  (freeVariables body).filter fun name =>
    !params.contains name && (Primitive.ofName? name).isNone

/-- A fragment stands for itself. Symbols, primitives and levels have no counterpart. -/
def lift : Value → Result Code
  | int n => .ok (.int .heap n)
  | nil => .ok .null
  | code fragment => .ok fragment
  | closure _ params body _ => .ok (.procedure params (capturedNames params body))
  | pair _ head tail =>
    match head.lift with
    | .error e => .error e
    | .ok head =>
      match tail.lift with
      | .error e => .error e
      | .ok tail => .ok (.pair none head tail)
  | v => fail (.notLiftable v)

/-- The value is declared in generated code; other values are used while compiling only. -/
def isMaterial : Value → Bool
  | int _ | nil | code _ => true
  | pair cell head tail => (pair cell head tail).canLift
  | _ => false

def integer (v : Value) : Result Int64 :=
  match v.int? with
  | some n => .ok n
  | none => fail (.notInteger v)

end StagedLisp.Value
