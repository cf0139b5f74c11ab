import StagedLisp.Text.Alphanumeric

/-! Lexemes: parentheses, quote marks and maximal runs of symbol characters. White space and
comments between them are dropped. Positions count UTF-8 bytes. -/
namespace StagedLisp.Reader

inductive Token where
  | openParen
  | closeParen
  | quoteMark
  | atom (word : String)
  /-- A character that starts no lexeme; nothing after it is scanned. -/
  | stray (c : Char)
deriving DecidableEq, Repr

structure Lexeme where
  token : Token
  start : Nat
  stop : Nat
deriving DecidableEq, Repr

def isSpace (c : Char) : Bool := c == ' ' || c == '\t' || c == '\r' || c == '\n'

def symbolMarks : List Char := "+-*/<>=!?_$%&.:^~".toList

def isSymbolChar (c : Char) : Bool := Text.isAlphanumeric c || symbolMarks.contains c

def byteSize (cs : List Char) : Nat := cs.foldr (fun c total => c.utf8Size + total) 0

def continuesLine (c : Char) : Bool := c != '\r' && c != '\n'

/-- A comment may stop here: at the end, at a line feed, or at a carriage return with one. A lone
carriage return ends no comment, and then the semicolon before it starts none. -/
def endsLine : List Char → Bool
  | [] => true
  | '\n' :: _ => true
  | '\r' :: '\n' :: _ => true
  | _ => false

def scan (cs : List Char) (position : Nat) : List Lexeme :=
  match cs with
  | [] => []
  | c :: rest =>
    if isSpace c then scan rest (position + 1)
    else if c == '(' then ⟨.openParen,position,position + 1⟩ :: scan rest (position + 1)
    else if c == ')' then ⟨.closeParen,position,position + 1⟩ :: scan rest (position + 1)
    else if c == '\'' then ⟨.quoteMark,position,position + 1⟩ :: scan rest (position + 1)
    else if isSymbolChar c then
      let word := c :: rest.takeWhile isSymbolChar
      let stop := position + byteSize word
      ⟨.atom (String.ofList word),position,stop⟩ :: scan (rest.dropWhile isSymbolChar) stop
    else if c == ';' && endsLine (rest.dropWhile continuesLine) then
      scan (rest.dropWhile continuesLine) (position + 1 + byteSize (rest.takeWhile continuesLine))
    else [⟨.stray c,position,position + c.utf8Size⟩]
termination_by cs.length
decreasing_by
  all_goals simp only [List.length_cons]
  all_goals first
    | omega
    | exact Nat.lt_succ_of_le (List.dropWhile_sublist _).length_le

def lexemes (source : String) : List Lexeme := scan source.toList 0

end StagedLisp.Reader
