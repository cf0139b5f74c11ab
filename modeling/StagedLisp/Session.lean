import StagedLisp.Eval.Basic
import StagedLisp.Reader.Read

/-! Sessions: reading and evaluating source text at a level. -/
namespace StagedLisp

namespace Eval

def ofReading : Except Reader.Report α → Eval α
  | .ok a => pure a
  | .error report => fault (.unreadable report)

def read (source : String) : Eval Value := do datum (← ofReading (Reader.read source))

def readAll (source : String) : Eval (List Value) := do
  (← ofReading (Reader.readAll source)).mapM datum

/-- Runs an action with options, records and names of its own; what it builds stays. -/
def isolated (options : Options) (action : Eval α) : Eval α := fun s =>
  let (result,t) := action { s with options, registry := {}, arena := {} }
  (result,{ t with options := s.options, registry := s.registry, arena := s.arena })

end Eval

def evaluateEach (level : Nat) (forms : List Value) : Eval Value := do
  return (← evaluate.each level forms).getLastD .nil

/-- Evaluates all forms of a text. Nothing is evaluated unless the whole text can be read. -/
def evaluateText (level : Nat) (source : String) : Eval Value := do
  evaluateEach level (← Eval.readAll source)

def evaluateApart (source : String) : Eval Value :=
  Eval.isolated {} do evaluate (← Eval.addRoot) (← Eval.read source)

end StagedLisp
