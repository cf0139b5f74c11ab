/-! The primitives of the language and the support routines they become in generated code. -/
namespace StagedLisp

inductive Primitive where
  | add | sub | mul | div | mod
  | lt | gt | le | ge | numEq
  | not
  | cons | car | cdr | isNull | isPair | list
  | eq
deriving DecidableEq, Inhabited, Repr

inductive Arity where
  | exactly (count : Nat)
  | atLeast (count : Nat)
  | any
deriving DecidableEq, Repr

def Arity.admits : Arity → Nat → Bool
  | exactly n, count => count == n
  | atLeast n, count => n ≤ count
  | any, _ => true

def Arity.expected : Arity → Nat
  | exactly n | atLeast n => n
  | any => 0

inductive Emission where
  | fold
  | call
  | listBuild
deriving DecidableEq, Repr

namespace Primitive

def all : List Primitive :=
  [add,sub,mul,div,mod,lt,gt,le,ge,numEq,not,cons,car,cdr,isNull,isPair,list,eq]

def name : Primitive → String
  | add => "+"
  | sub => "-"
  | mul => "*"
  | div => "/"
  | mod => "%"
  | lt => "<"
  | gt => ">"
  | le => "<="
  | ge => ">="
  | numEq => "="
  | not => "not"
  | cons => "cons"
  | car => "car"
  | cdr => "cdr"
  | isNull => "null?"
  | isPair => "pair?"
  | list => "list"
  | eq => "eq?"

def helper : Primitive → String
  | add => "add"
  | sub => "sub"
  | mul => "mul"
  | div => "div_op"
  | mod => "mod_op"
  | lt => "lt_op"
  | gt => "gt_op"
  | le => "le_op"
  | ge => "ge_op"
  | numEq => "num_eq"
  | not => "not_op"
  | cons | list => "mk_pair"
  | car => "car"
  | cdr => "cdr"
  | isNull => "is_nil"
  | isPair => "is_pair"
  | eq => "eq_op"

def arity : Primitive → Arity
  | add | list => .any
  | sub | mul => .atLeast 1
  | not | car | cdr | isNull | isPair => .exactly 1
  | _ => .exactly 2

def emission : Primitive → Emission
  | add | sub | mul => .fold
  | list => .listBuild
  | _ => .call

def ofName? (name : String) : Option Primitive := all.find? (·.name == name)

/-- The result is a fresh integer that shares nothing with the operands. -/
def isScalar : Primitive → Bool
  | cons | car | cdr | list => false
  | _ => true

end Primitive

def isScalarName (name : String) : Bool := (Primitive.ofName? name).any Primitive.isScalar

end StagedLisp
