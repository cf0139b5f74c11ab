import StagedLisp.Reader.Lexeme
import StagedLisp.Text.Grapheme.Split

/-! Lines as they are typed. A backspace takes back the cluster before it; at the start of a line
it does nothing. -/
namespace StagedLisp.CommandLine

structure Typed where
  text : List Char := []
  /-- The lengths of the clusters on the line in bytes, the last one first. A length is kept in one
  byte, so a longer cluster can be taken back only in part. -/
  lengths : List UInt8 := []

namespace Typed

/-- Drops bytes from the front, unless the cut would fall inside a character. -/
def dropBytes? : Nat → List Char → Option (List Char)
  | 0, cs => some cs
  | _ + 1, [] => none
  | n + 1, c :: cs => if c.utf8Size ≤ n + 1 then dropBytes? (n + 1 - c.utf8Size) cs else none

def takeBack? (t : Typed) : Option Typed :=
  match t.lengths with
  | [] => some t
  | n :: lengths => (dropBytes? n.toNat t.text).map fun text => { text, lengths }

def add (t : Typed) (cluster : List Char) : Typed :=
  ⟨cluster.reverse ++ t.text,(Reader.byteSize cluster).toUInt8 :: t.lengths⟩

def enter? (t : Typed) (cluster : List Char) : Option Typed :=
  if cluster = ['\x08'] then t.takeBack? else some (t.add cluster)

/-- The line that is left when all is typed. There is none if a backspace would cut a character. -/
def line? (input : String) : Option String :=
  ((Text.graphemes input.toList).foldlM enter? {}).map fun t => String.ofList t.text.reverse

end Typed

end StagedLisp.CommandLine
