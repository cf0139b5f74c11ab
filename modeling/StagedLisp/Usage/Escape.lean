/-! How far a binding's value can travel out of its block. -/
namespace StagedLisp

inductive Escape where
  | inside
  /-- Is passed to a callee or handed to the enclosing expression. -/
  | argument
  /-- Is reachable from a closure, a recursive binding or a mutated place. -/
  | everywhere
deriving DecidableEq, Inhabited, Repr

namespace Escape

def rank : Escape → Nat
  | inside => 0
  | argument => 1
  | everywhere => 2

def join (a b : Escape) : Escape := if a.rank ≤ b.rank then b else a

def name : Escape → String
  | inside => "none"
  | argument => "arg"
  | everywhere => "global"

def all : List Escape := [inside,argument,everywhere]

def ofName? (name : String) : Option Escape := all.find? (·.name == name)

end Escape

end StagedLisp
