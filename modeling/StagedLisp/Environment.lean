import StagedLisp.Value.Basic
import StagedLisp.Text.Quoted

/-! Environments as chains of shared slots. Extending an environment adds a slot in front and shares
the rest; assignment writes to the slot itself, so every environment that shares it sees the new
value. -/
namespace StagedLisp

abbrev Slots := Array Value

namespace Env

def slot? (env : Env) (name : String) : Option Nat := env.lookup name

def binds (env : Env) (name : String) : Bool := (env.slot? name).isSome

def value? (env : Env) (slots : Slots) (name : String) : Option Value :=
  (env.slot? name).bind fun slot => slots[slot]?

def extend (env : Env) (slots : Slots) (name : String) (value : Value) : Env × Slots :=
  ((name,slots.size) :: env,slots.push value)

def extendAll (env : Env) (slots : Slots) (entries : List (String × Value)) : Env × Slots :=
  entries.foldl (fun (env,slots) (name,value) => env.extend slots name value) (env,slots)

def assign? (env : Env) (slots : Slots) (name : String) (value : Value) : Option Slots :=
  (env.slot? name).map fun slot => slots.setIfInBounds slot value

def primitives (slots : Slots) : Env × Slots :=
  extendAll [] slots (Primitive.all.map fun op => (op.name,.prim op))

def names (env : Env) : List String := env.map Prod.fst

def text (env : Env) : String := "Environment" ++ Text.quotedList env.names

end Env

end StagedLisp
