import StagedLisp.Value.Printer

/-! Handlers: the rules of an evaluator that programs can replace. -/
namespace StagedLisp

/-- The rules that can be replaced, each for one kind of expression. -/
inductive Rule where
  | literal
  | symbol
  | call
  | letForm
  | ifForm
deriving DecidableEq, Repr

namespace Rule

def name : Rule → String
  | literal => "lit"
  | symbol => "var"
  | call => "app"
  | letForm => "let"
  | ifForm => "if"

def all : List Rule := [literal,symbol,call,letForm,ifForm]

def ofName? (name : String) : Option Rule := all.find? (·.name == name)

end Rule

inductive Handler where
  | native
  /-- A procedure that receives the expression as data and runs one level up. -/
  | reflected (procedure : Value)

namespace Handler

def isNative : Handler → Bool
  | native => true
  | reflected _ => false

def text : Handler → String
  | native => "Native(<fn>)"
  | reflected procedure => "Reflected(" ++ procedure.text ++ ")"

end Handler

structure Handlers where
  literal : Handler := .native
  symbol : Handler := .native
  call : Handler := .native
  letForm : Handler := .native
  ifForm : Handler := .native

namespace Handlers

def get (h : Handlers) : Rule → Handler
  | .literal => h.literal
  | .symbol => h.symbol
  | .call => h.call
  | .letForm => h.letForm
  | .ifForm => h.ifForm

def set (h : Handlers) (rule : Rule) (handler : Handler) : Handlers :=
  match rule with
  | .literal => { h with literal := handler }
  | .symbol => { h with symbol := handler }
  | .call => { h with call := handler }
  | .letForm => { h with letForm := handler }
  | .ifForm => { h with ifForm := handler }

end Handlers

end StagedLisp
