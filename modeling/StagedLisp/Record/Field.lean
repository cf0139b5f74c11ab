import StagedLisp.Fault

/-! Fields of record types. A field refers to another record unless its type is a scalar; it is
strong unless it is written otherwise or demoted because it closes a cycle. -/
namespace StagedLisp

inductive Strength where
  | strong
  | weak
  /-- Neither scanned nor released. -/
  | untraced
deriving DecidableEq, Repr

namespace Strength

def name : Strength → String
  | strong => "strong"
  | weak => "weak"
  | untraced => "untraced"

def all : List Strength := [strong,weak,untraced]

def ofName? (name : String) : Option Strength := all.find? (·.name == name)

end Strength

structure Field where
  name : String
  typeName : String
  /-- The strength that is written down, which stands as it is. -/
  annotation : Option Strength := none
  /-- The field closes a cycle of strong fields and has become weak. -/
  demoted : Bool := false
deriving DecidableEq, Repr

namespace Field

def isScalarType (name : String) : Bool := name == "int" || name == "Int"

def isReference (f : Field) : Bool := !isScalarType f.typeName

def isPinned (f : Field) : Bool := f.annotation.isSome

def strength (f : Field) : Strength := f.annotation.getD (if f.demoted then .weak else .strong)

def isWeak (f : Field) : Bool := f.strength = .weak

def isTraced (f : Field) : Bool := f.isReference && f.strength = .strong

def declared (f : Field) : Field := { f with demoted := false }

def ofValue (spec : Value) : Result Field :=
  match spec.items? with
  | some [.sym name,.sym typeName] => .ok { name, typeName }
  | some [.sym name,.sym typeName,.sym word] =>
    match Strength.ofName? word with
    | some strength => .ok { name, typeName, annotation := some strength }
    | none => fail (.unknownStrength word)
  | _ => fail (.notField spec)

end Field

def duplicateField? : List Field → Option String
  | fields => go [] fields
where
  go (seen : List String) : List Field → Option String
    | [] => none
    | f :: rest => if seen.contains f.name then some f.name else go (f.name :: seen) rest

end StagedLisp
