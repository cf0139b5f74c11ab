/-! Data as written: integers of 64 bits, symbols, the empty list and pairs. -/
namespace StagedLisp

inductive Datum where
  | int (value : Int64)
  | sym (name : String)
  | nil
  | cons (head tail : Datum)
deriving DecidableEq, Inhabited, Repr

namespace Datum

/-- The list of `items` that ends in `last`; a proper list when `last` is `nil`. -/
def ofListTail (items : List Datum) (last : Datum) : Datum := items.foldr cons last

def ofList (items : List Datum) : Datum := ofListTail items nil

def items? : Datum → Option (List Datum)
  | nil => some []
  | cons head tail => (head :: ·) <$> tail.items?
  | _ => none

mutual

def text : Datum → String
  | int n => toString n.toInt
  | sym name => name
  | nil => "()"
  | cons head tail => "(" ++ head.text ++ tail.tailText ++ ")"

def tailText : Datum → String
  | nil => ""
  | cons head tail => " " ++ head.text ++ tail.tailText
  | int n => " . " ++ toString n.toInt
  | sym name => " . " ++ name

end

structure Census where
  ints : Nat := 0
  syms : Nat := 0
  nils : Nat := 0
  pairs : Nat := 0
deriving DecidableEq, Repr

def Census.add (a b : Census) : Census :=
  ⟨a.ints + b.ints,a.syms + b.syms,a.nils + b.nils,a.pairs + b.pairs⟩

def census : Datum → Census
  | int _ => ⟨1,0,0,0⟩
  | sym _ => ⟨0,1,0,0⟩
  | nil => ⟨0,0,1,0⟩
  | cons head tail => (head.census.add tail.census).add ⟨0,0,0,1⟩

end Datum

end StagedLisp
