import StagedLisp.Code.Fragment
import StagedLisp.Datum
import StagedLisp.Primitive.Basic

/-! Values. A pair carries the identity of its cell, so that sharing is visible although a value is
a finite tree; procedures and levels have an identity too. -/
namespace StagedLisp

/-- An environment lists names with the slots that hold their values, innermost first. -/
abbrev Env := List (String × Nat)

inductive Value where
  | int (value : Int64)
  | sym (name : String)
  | nil
  | pair (cell : Nat) (head tail : Value)
  | prim (op : Primitive)
  | closure (id : Nat) (params : List String) (body : Value) (env : Env)
  | code (fragment : Code)
  | level (id : Nat)
deriving Inhabited

namespace Value

def isNil : Value → Bool
  | nil => true
  | _ => false

def isCode : Value → Bool
  | code _ => true
  | _ => false

def truthy : Value → Bool
  | nil => false
  | int n => n != 0
  | _ => true

def symbol? : Value → Option String
  | sym name => some name
  | _ => none

def int? : Value → Option Int64
  | int n => some n
  | _ => none

def code? : Value → Option Code
  | code fragment => some fragment
  | _ => none

def cell? : Value → Option Nat
  | pair cell _ _ => some cell
  | _ => none

def head? : Value → Option Value
  | pair _ head _ => some head
  | _ => none

def tail? : Value → Option Value
  | pair _ _ tail => some tail
  | _ => none

def headSymbol? (v : Value) : Option String := v.head?.bind symbol?

def second? (v : Value) : Option Value := v.tail?.bind head?

def elements : Value → List Value
  | pair _ head tail => head :: tail.elements
  | _ => []

def items? : Value → Option (List Value)
  | nil => some []
  | pair _ head tail => (head :: ·) <$> tail.items?
  | _ => none

def formItems? : Value → Option (List Value)
  | pair cell head tail => (pair cell head tail).items?
  | _ => none

def kind : Value → String
  | int _ => "integer"
  | sym _ => "symbol"
  | pair _ _ _ => "pair"
  | nil => "nil"
  | prim _ => "primitive"
  | closure _ _ _ _ => "closure"
  | code _ => "code"
  | level _ => "menv"

/-- The value of a datum, with fresh cells numbered from `next` on, and the next free number. -/
def ofDatum : Datum → Nat → Value × Nat
  | .int n, next => (int n,next)
  | .sym name, next => (sym name,next)
  | .nil, next => (nil,next)
  | .cons head tail, next =>
    let (head,next) := ofDatum head next
    let (tail,next) := ofDatum tail next
    (pair next head tail,next + 1)

/-- The proper list of `items`, with fresh cells numbered from `next` on. -/
def ofItems : List Value → Nat → Value × Nat
  | [], next => (nil,next)
  | item :: rest, next =>
    let (tail,next) := ofItems rest next
    (pair next item tail,next + 1)

/-- Equality of contents. Two pairs with one cell are equal without being compared. -/
def same : Value → Value → Bool
  | pair c h t, pair d h' t' => c == d || (h.same h' && t.same t')
  | int a, int b => a == b
  | sym a, sym b => a == b
  | nil, nil => true
  | code a, code b => a.render == b.render
  | prim a, prim b => a == b
  | closure a _ _ _, closure b _ _ _ => a == b
  | level a, level b => a == b
  | _, _ => false

end Value

end StagedLisp
