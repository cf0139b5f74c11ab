import StagedLisp.Reader.Rejection
import StagedLisp.Word

/-! Reading data. Lexemes drive a machine whose stack holds the lists and quotations still open;
a datum is done when the stack is empty again. -/
namespace StagedLisp.Reader

inductive Frame where
  | items (read : List Datum) (opened : Nat)
  | dotted (read : List Datum) (opened : Nat)
  /-- After the tail; only the closing parenthesis may follow. -/
  | tailed (read : List Datum) (tail : Datum) (opened : Nat)
  | quotation
deriving Repr

inductive Progress where
  | pending (stack : List Frame)
  | done (datum : Datum)
deriving Repr

def quotationOf (datum : Datum) : Datum := .ofList [.sym "quote",datum]

/-- Hands a finished datum to what is open around it; `stop` is where its text ends. -/
def deliver (stop : Nat) : List Frame → Datum → Except Rejection Progress
  | [], datum => .ok (.done datum)
  | .quotation :: stack, datum => deliver stop stack (quotationOf datum)
  | .items read opened :: stack, datum => .ok (.pending (.items (datum :: read) opened :: stack))
  | .dotted read opened :: stack, datum => .ok (.pending (.tailed read datum opened :: stack))
  | .tailed _ _ _ :: _, datum => .error ⟨.secondTail datum,stop⟩

def close (start stop : Nat) : List Frame → Except Rejection Progress
  | .items read _ :: stack => deliver stop stack (.ofList read.reverse)
  | .tailed read tail _ :: stack => deliver stop stack (.ofListTail read.reverse tail)
  | .dotted _ _ :: _ => .error ⟨.missingTail,start⟩
  | .quotation :: _ => .error ⟨.closedQuote,start⟩
  | [] => .error ⟨.unopened,start⟩

def markDot (start : Nat) : List Frame → Except Rejection Progress
  | .items (item :: read) opened :: stack => .ok (.pending (.dotted (item :: read) opened :: stack))
  | _ => .error ⟨.misplacedDot,start⟩

def digitsValue (digits : List Char) : Nat :=
  digits.foldl (fun n c => 10 * n + (c.toNat - '0'.toNat)) 0

def digits? (cs : List Char) : Option Nat :=
  if cs ≠ [] ∧ cs.all Char.isDigit then some (digitsValue cs) else none

/-- The integer an atom denotes: at least one digit after an optional sign. -/
def integer? : List Char → Option Int
  | '-' :: digits => (digits? digits).map fun n => -(n : Int)
  | '+' :: digits => (digits? digits).map fun n => (n : Int)
  | digits => (digits? digits).map fun n => (n : Int)

def atom (word : String) : Except Cause Datum :=
  match integer? word.toList with
  | some n => match Word.ofInt? n with
    | some n => .ok (.int n)
    | none => .error (.integerRange word)
  | none => .ok (.sym word)

def step (stack : List Frame) (lexeme : Lexeme) : Except Rejection Progress :=
  match lexeme.token with
  | .openParen => .ok (.pending (.items [] lexeme.start :: stack))
  | .closeParen => close lexeme.start lexeme.stop stack
  | .quoteMark => .ok (.pending (.quotation :: stack))
  | .stray c => .error ⟨.strayChar c,lexeme.start⟩
  | .atom word =>
    if word = "." then markDot lexeme.start stack
    else match atom word with
      | .ok datum => deliver lexeme.stop stack datum
      | .error cause => .error ⟨cause,lexeme.start⟩

/-- The text ended at byte `stop` while `stack` was open. -/
def unfinished (stop : Nat) : List Frame → Rejection
  | [] => ⟨.emptyInput,stop⟩
  | .quotation :: _ => ⟨.danglingQuote,stop⟩
  | .items _ opened :: _ => ⟨.unterminated opened,opened⟩
  | .dotted _ opened :: _ => ⟨.unterminated opened,opened⟩
  | .tailed _ _ opened :: _ => ⟨.unterminated opened,opened⟩

def readFirst (stop : Nat) : List Lexeme → List Frame → Except Rejection (Datum × List Lexeme)
  | [], stack => .error (unfinished stop stack)
  | lexeme :: rest, stack =>
    match step stack lexeme with
    | .error rejection => .error rejection
    | .ok (.pending stack) => readFirst stop rest stack
    | .ok (.done datum) => .ok (datum,rest)

def readEach (stop : Nat) : List Lexeme → List Frame → Except Rejection (List Datum)
  | [], [] => .ok []
  | [], stack => .error (unfinished stop stack)
  | lexeme :: rest, stack =>
    match step stack lexeme with
    | .error rejection => .error rejection
    | .ok (.pending stack) => readEach stop rest stack
    | .ok (.done datum) => (datum :: ·) <$> readEach stop rest []

def readRejecting (source : String) : Except Rejection Datum :=
  match readFirst source.utf8ByteSize (lexemes source) [] with
  | .error rejection => .error rejection
  | .ok (datum,[]) => .ok datum
  | .ok (_,lexeme :: _) =>
    .error ⟨.trailing (dropBytes source.toList lexeme.start),lexeme.start⟩

def read (source : String) : Except Report Datum :=
  (readRejecting source).mapError (·.report source)

def readAll (source : String) : Except Report (List Datum) :=
  (readEach source.utf8ByteSize (lexemes source) []).mapError (·.report source)

end StagedLisp.Reader
