import StagedLisp.CommandLine.Typed
import StagedLisp.Program
import StagedLisp.Session
import StagedLisp.Text.Blank

/-! Interactive sessions, one line at a time. -/
namespace StagedLisp.CommandLine

structure Interactive where
  store : Store
  root : Nat
  lastCode : Option Code := none

namespace Interactive

def banner : String := "asapc interactive session. Type :help for commands, Ctrl+D to exit."

def brokenLine : Nat := 101

def help : List String := [
  "Commands:",
  "  :help     show this message",
  "  :types    list registered types and their weak fields",
  "  :program  print the last staged result as a full program",
  "  :quit     leave the session"]

def start (options : Options) : Interactive :=
  let (root,store) := Store.addRoot { options }
  { store, root }

def describe (r : Record) : String :=
  let count := r.fields.length
  r.name ++ s!" ({count} fields, weak: [" ++ ", ".intercalate (r.weakFields.map Field.name) ++ "])"

def records (s : Interactive) : List String :=
  if s.store.registry.records.isEmpty then ["No types registered."]
  else s.store.registry.records.map describe

def program (s : Interactive) : List String :=
  match s.lastCode with
  | some code => [Program.text code.render s.store.registry s.store.options]
  | none => ["Nothing staged yet."]

def evaluateLine (s : Interactive) (line : String) : Interactive × List String :=
  match (evaluateText s.root line).run s.store with
  | (.ok (.code code),store) => ({ s with store, lastCode := some code },[code.render])
  | (.ok value,store) => ({ s with store },[value.text])
  | (.error e,store) => ({ s with store },["Error: " ++ e.message])

/-- Answers a command or an expression with the lines to print. A line that ends the session has no
answer. -/
def respond (s : Interactive) (line : String) : Option (Interactive × List String) :=
  match Text.trim line with
  | "" => some (s,[])
  | ":help" => some (s,help)
  | ":types" => some (s,s.records)
  | ":program" => some (s,s.program)
  | ":quit" | ":exit" => none
  | line => some (s.evaluateLine line)

/-- What follows a typed line: the lines to print and the session after it, or the status with which
the program ends. -/
def answer (s : Interactive) (typed : String) : Except Nat (Interactive × List String) :=
  match Typed.line? typed with
  | none => .error brokenLine
  | some line => (s.respond line).elim (.error 0) .ok

def transcript (s : Interactive) : List String → List String × Nat
  | [] => ([],0)
  | typed :: rest =>
    match s.answer typed with
    | .error status => ([],status)
    | .ok (s,printed) =>
      let (later,status) := s.transcript rest
      (printed ++ later,status)

end Interactive

end StagedLisp.CommandLine
