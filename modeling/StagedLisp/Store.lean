import StagedLisp.Arena
import StagedLisp.Environment
import StagedLisp.Level.Basic
import StagedLisp.Primitive.Apply
import StagedLisp.Record.Registry

/-! The state of evaluation. Everything that has an identity is numbered: slots and levels by their
position, cells and procedures by one counter. State changes survive an error. -/
namespace StagedLisp

structure Store where
  slots : Slots := #[]
  levels : Array Level := #[]
  next : Nat := 0
  options : Options := {}
  registry : Registry := {}
  arena : Arena := {}

namespace Store

def addLevel (s : Store) (level : Level) : Nat × Store :=
  (s.levels.size,{ s with levels := s.levels.push level })

def addRoot (s : Store) : Nat × Store :=
  let (env,slots) := Env.primitives s.slots
  { s with slots }.addLevel { env }

end Store

abbrev Eval := ExceptT Error (StateM Store)

namespace Eval

def ofResult : Result α → Eval α
  | .ok a => pure a
  | .error e => throw e

def fault (cause : Fault) : Eval α := throw ⟨cause,[]⟩

def fresh : Eval Nat := modifyGet fun s => (s.next,{ s with next := s.next + 1 })

def datum (d : Datum) : Eval Value :=
  modifyGet fun s =>
    let (value,next) := Value.ofDatum d s.next
    (value,{ s with next })

def pair (head tail : Value) : Eval Value := return .pair (← fresh) head tail

def extend (env : Env) (name : String) (value : Value) : Eval Env :=
  modifyGet fun s =>
    let (env,slots) := env.extend s.slots name value
    (env,{ s with slots })

def extendAll (env : Env) (entries : List (String × Value)) : Eval Env :=
  modifyGet fun s =>
    let (env,slots) := env.extendAll s.slots entries
    (env,{ s with slots })

def value? (env : Env) (name : String) : Eval (Option Value) :=
  return env.value? (← get).slots name

def assign (env : Env) (name : String) (value : Value) : Eval Bool :=
  modifyGet fun s =>
    match env.assign? s.slots name value with
    | some slots => (true,{ s with slots })
    | none => (false,s)

def level (id : Nat) : Eval Level := return (← get).levels.getD id { env := [] }

def updateLevel (id : Nat) (f : Level → Level) : Eval Unit :=
  modify fun s => { s with levels := s.levels.modify id f }

def addLevel (level : Level) : Eval Nat := modifyGet (·.addLevel level)

def addRoot : Eval Nat := modifyGet Store.addRoot

def scope (id : Nat) (env : Env) : Eval Nat := do
  addLevel ((← level id).scope env)

def parent (id : Nat) : Eval Nat := do
  match (← level id).parent with
  | some above => return above
  | none =>
    let above ← addRoot
    updateLevel id fun l => { l with parent := some above }
    return above

def define (id : Nat) (name : String) (value : Value) : Eval Unit := do
  let env ← extend (← level id).env name value
  updateLevel id fun l => { l with env }

def setHandler (id : Nat) (rule : Rule) (handler : Handler) : Eval Unit :=
  updateLevel id fun l => { l with handlers := l.handlers.set rule handler }

def setStaging (id : Nat) (staging : Bool) : Eval Unit :=
  updateLevel id fun l => { l with staging }

def recordShapes (id : Nat) (shapes : List (String × Shape)) : Eval Unit :=
  updateLevel id fun l => { l with known := l.known.setAll shapes }

def setReleases (id : Nat) (releases : List BranchRelease) : Eval Unit :=
  updateLevel id fun l => { l with releases }

def reference (name : String) : Eval Value :=
  modifyGet fun s =>
    let ident := Code.identifier name
    (.code (.var ident),{ s with arena := (s.arena.intern ident).2 })

def registerRecord (name : String) (fields : List Field) : Eval Unit := do
  let registry ← ofResult ((← get).registry.register name fields)
  modify fun s => { s with registry }

def primitive (op : Primitive) (args : List Value) : Eval Value := do
  let (value,next) ← ofResult (op.apply args (← get).next)
  modify fun s => { s with next }
  return value

end Eval

end StagedLisp
