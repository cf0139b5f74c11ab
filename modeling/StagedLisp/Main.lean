import StagedLisp.CommandLine.Run

/-! The program itself. -/
open StagedLisp StagedLisp.CommandLine

def finish (outcome : Outcome) : IO UInt32 := do
  (← IO.getStdout).putStr outcome.output
  (← IO.getStderr).putStr outcome.errors
  return outcome.status.toUInt32

partial def interact (input output : IO.FS.Stream) (s : Interactive) : IO UInt32 := do
  let line ← input.getLine
  if line.isEmpty then return 0
  match s.answer line with
  | .error status => return status.toUInt32
  | .ok (s,printed) =>
    output.putStr (Text.lines printed)
    output.flush
    interact input output s

def main (args : List String) : IO UInt32 := do
  match Arguments.ofList args with
  | .error stop => finish stop.outcome
  | .ok a =>
    let input ← IO.getStdin
    if a.has .repl then
      let output ← IO.getStdout
      output.putStr (Text.lines [Interactive.banner])
      output.flush
      interact input output (Interactive.start a.options)
    else
      let source ← match a.expr with
        | some expr => pure expr
        | none => input.getLine
      finish (runOnce a source)
