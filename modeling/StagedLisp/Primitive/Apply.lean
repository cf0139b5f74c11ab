import StagedLisp.Primitive.Arithmetic
import StagedLisp.Value.Lift

/-! Application of primitives. Operands that are all values are reduced; as soon as one of them is a
fragment, the call itself becomes a fragment. -/
namespace StagedLisp.Primitive

def boolean (b : Bool) : Value := .int (if b then 1 else 0)

/-- Pairs are the same when they have one cell, other values when their contents are equal.
Fragments are never the same. -/
def identical : Value → Value → Bool
  | .pair c _ _, .pair d _ _ => c == d
  | .pair _ _ _, _ => false
  | .code _, _ => false
  | a, b => a.same b

/-- The result of a primitive on values, with new cells numbered from `next` on. -/
def reduce (op : Primitive) (args : List Value) (next : Nat) : Result (Value × Nat) :=
  let int (result : Result Int64) : Result (Value × Nat) := result.map fun n => (.int n,next)
  let bool (b : Bool) : Result (Value × Nat) := .ok (boolean b,next)
  let compared (result : Result Bool) : Result (Value × Nat) :=
    result.map fun b => (boolean b,next)
  match op, args with
  | add, args => int (sum args)
  | sub, args => int (difference args)
  | mul, args => int (product args)
  | div, [a,b] => int (divide div Int.tdiv a b)
  | mod, [a,b] => int (divide mod Int.tmod a b)
  | lt, [a,b] => compared (compare lt (fun a b => decide (a < b)) a b)
  | gt, [a,b] => compared (compare gt (fun a b => decide (a > b)) a b)
  | le, [a,b] => compared (compare le (fun a b => decide (a ≤ b)) a b)
  | ge, [a,b] => compared (compare ge (fun a b => decide (a ≥ b)) a b)
  | numEq, [a,b] => compared (compare numEq (fun a b => decide (a = b)) a b)
  | not, [v] => bool (!v.truthy)
  | cons, [head,tail] => .ok (.pair next head tail,next + 1)
  | car, [v] => match v.head? with
    | some head => .ok (head,next)
    | none => fail (.notPair car v)
  | cdr, [v] => match v.tail? with
    | some tail => .ok (tail,next)
    | none => fail (.notPair cdr v)
  | isNull, [v] => bool v.isNil
  | isPair, [v] => bool v.cell?.isSome
  | list, args => .ok (Value.ofItems args next)
  | eq, [a,b] => bool (identical a b)
  | op, args => fail (.operandCount op.arity.expected args.length)

def liftAll : List Value → Result (List Code)
  | [] => .ok []
  | v :: rest =>
    match v.lift with
    | .error e => .error e
    | .ok code =>
      match liftAll rest with
      | .error e => .error e
      | .ok codes => .ok (code :: codes)

def emit (op : Primitive) (operands : List Code) : Result Code :=
  match op.emission, operands with
  | .fold, [] => fail (.operandCount 1 0)
  | .fold, [only] =>
    .ok (if op = sub then .call2 op.helper (.int .heap 0) only else only)
  | .fold, first :: rest => .ok (rest.foldl (.call2 op.helper) first)
  | .call, [operand] => .ok (.call1 op.helper operand)
  | .call, [left,right] =>
    .ok (if op = cons then .pair none left right else .call2 op.helper left right)
  | .call, operands => fail (.operandCount op.arity.expected operands.length)
  | .listBuild, operands => .ok (operands.foldr (.pair none) .null)

def apply (op : Primitive) (args : List Value) (next : Nat) : Result (Value × Nat) :=
  if !op.arity.admits args.length then fail (.operandCount op.arity.expected args.length)
  else if args.any Value.isCode then
    match liftAll args with
    | .error e => .error e
    | .ok operands => (emit op operands).map fun code => (.code code,next)
  else reduce op args next

end StagedLisp.Primitive
