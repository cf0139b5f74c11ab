import StagedLisp.Reader.Lexeme
import StagedLisp.Datum
import StagedLisp.Text.Search

/-! Why a text is not a datum, and the report that shows where. -/
namespace StagedLisp.Reader

inductive Category where
  | invalidSyntax
  | incomplete
  | trailingContent
  | implementationLimit
deriving DecidableEq, Repr

structure Report where
  category : Category
  message : String
  excerpt : Option String
  found : Option String
deriving DecidableEq, Repr

def Report.text (r : Report) : String :=
  r.message ++ (match r.found with | some found => "\nFound: " ++ found | none => "") ++
    (match r.excerpt with | some excerpt => "\nContext: " ++ excerpt | none => "")

/-- The characters before the byte `offset`; none when it falls inside a character. -/
def charsBefore? : List Char → Nat → Option Nat
  | _, 0 => some 0
  | [], _ => some 0
  | c :: rest, offset =>
    if offset < c.utf8Size then none else (· + 1) <$> charsBefore? rest (offset - c.utf8Size)

def dropBytes : List Char → Nat → List Char
  | cs, 0 => cs
  | [], _ => []
  | c :: rest, offset => dropBytes rest (offset - c.utf8Size)

def excerptLength : Nat := 100

def excerptLead : Nat := 20

/-- The part of the source around a byte offset on one line, with marks where it was cut. An offset
inside a character counts as the start of the source. -/
def excerptAt (source : String) (offset : Nat) : String :=
  let cs := source.toList
  let start := (charsBefore? cs offset).getD 0 - excerptLead
  let shown := (cs.drop start).take excerptLength
  let lead := if start > 0 then "[...]" else ""
  let trail := if start + shown.length < cs.length then "[...]" else ""
  Text.replaceChar '\r' "" (Text.replaceChar '\n' "\\n" (lead ++ String.ofList shown ++ trail))

def Report.at (category : Category) (message : String) (source : String) (offset : Nat)
    (found : Option String) : Report :=
  ⟨category,message,some (excerptAt source offset),found⟩

def Report.plain (category : Category) (message : String) : Report :=
  ⟨category,message,none,none⟩

inductive Cause where
  | strayChar (c : Char)
  | integerRange (word : String)
  | misplacedDot
  | secondTail (extra : Datum)
  | missingTail
  | closedQuote
  | unopened
  | emptyInput
  | danglingQuote
  | unterminated (opened : Nat)
  | trailing (start : List Char)
deriving Repr

namespace Cause

def category : Cause → Category
  | integerRange _ => .implementationLimit
  | emptyInput | danglingQuote | unterminated _ => .incomplete
  | trailing _ => .trailingContent
  | _ => .invalidSyntax

def message : Cause → String
  | strayChar _ => "Unexpected character"
  | integerRange _ => "Integer literal out of range"
  | misplacedDot => "Misplaced '.'"
  | secondTail _ => "More than one expression after '.' in dotted pair"
  | missingTail => "Expected expression after '.'"
  | closedQuote | danglingQuote => "Quote must be followed by an expression"
  | unopened => "Unexpected ')'"
  | emptyInput => "Empty input"
  | unterminated opened => "Unterminated list (opened at byte " ++ toString opened ++ ")"
  | trailing _ => "Unexpected content after expression"

def found : Cause → Option String
  | strayChar c => some c.toString
  | integerRange word => some word
  | misplacedDot => some "."
  | secondTail extra => some extra.text
  | missingTail | closedQuote | unopened => some ")"
  | trailing start => some (String.ofList (start.take 10))
  | emptyInput | danglingQuote | unterminated _ => none

end Cause

structure Rejection where
  cause : Cause
  offset : Nat
deriving Repr

def Rejection.report (r : Rejection) (source : String) : Report :=
  .at r.cause.category r.cause.message source r.offset r.cause.found

end StagedLisp.Reader
