import StagedLisp.CommandLine.Arguments
import StagedLisp.CommandLine.Interactive

/-! The program as a function of its arguments and its input. -/
namespace StagedLisp.CommandLine

structure Outcome where
  status : Nat := 0
  output : String := ""
  errors : String := ""
deriving DecidableEq, Repr

def versionLine : String := "asapc 0.1.0"

def Stop.outcome : Stop → Outcome
  | .version => { output := Text.lines [versionLine] }
  | .help => {}
  | .misuse => { status := 2 }

def firstLine (input : String) : String :=
  let cs := input.toList
  String.ofList (cs.takeWhile (· != '\n') ++ (cs.dropWhile (· != '\n')).take 1)

def runOnce (a : Arguments) (source : String) : Outcome :=
  let s := Interactive.start a.options
  match (evaluateText s.root source).run s.store with
  | (.error e,_) => { status := 1, errors := Text.lines ["Error: " ++ e.message] }
  | (.ok (.code code),store) =>
    { output := Text.lines [if a.has .blockOnly then code.render
        else Program.text code.render store.registry store.options] }
  | (.ok value,_) => { output := Text.lines [value.text] }

def inputLines (input : String) : List String := input.splitOn "\n"

def runInteractive (a : Arguments) (input : String) : Outcome :=
  let (printed,status) := (Interactive.start a.options).transcript (inputLines input)
  { status, output := Text.lines (Interactive.banner :: printed) }

/-- Runs the program. Without an expression the first line of the input is evaluated. -/
def run (args : List String) (input : String) : Outcome :=
  match Arguments.ofList args with
  | .error stop => stop.outcome
  | .ok a =>
    if a.has .repl then runInteractive a input
    else runOnce a (a.expr.getD (firstLine input))

end StagedLisp.CommandLine
