import StagedLisp.Proofs.Reader.Grammar
import StagedLisp.Value.Printer

/-! Printing and reading cancel. The text of a datum is cut into the tokens it was written with, and
these derive the datum again; conversely what can be read is made of names that are read as
symbols. -/
namespace StagedLisp

open List Reader

/-- The name is read as a symbol: it is a word, but neither the dot nor a numeral. -/
structure Reader.IsSymbol (name : String) : Prop where
  nonempty : name.toList ≠ []
  chars : ∀ c ∈ name.toList, SymbolChar c
  notDot : name ≠ "."
  notNumeral : ∀ n, ¬ Numeral name.toList n

/-- The datum a value is made of, apart from the identity of its cells. -/
def Value.datum? : Value → Option Datum
  | int n => some (.int n)
  | sym name => some (.sym name)
  | nil => some .nil
  | pair _ head tail => head.datum?.bind fun a => tail.datum?.map fun b => .cons a b
  | _ => none

namespace Datum

/-- All names in the datum are read as symbols. -/
inductive Readable : Datum → Prop where
  | int (n : Int64) : Readable (.int n)
  | sym {name} : IsSymbol name → Readable (.sym name)
  | nil : Readable .nil
  | cons {head tail} : Readable head → Readable tail → Readable (.cons head tail)

mutual

def tokens : Datum → List Token
  | int n => [.atom (toString n.toInt)]
  | sym name => [.atom name]
  | nil => [.openParen,.closeParen]
  | cons head tail => .openParen :: (head.tokens ++ (tail.tailTokens ++ [.closeParen]))

def tailTokens : Datum → List Token
  | nil => []
  | cons head tail => head.tokens ++ tail.tailTokens
  | int n => [.atom ".",.atom (toString n.toInt)]
  | sym name => [.atom ".",.atom name]

end

end Datum

section Words

theorem decimal_digits (n : Nat) : Decimal (Nat.toDigits 10 n) n := by
  have digits : ∀ c ∈ Nat.toDigits 10 n, c.isDigit = true := fun c member =>
    Nat.isDigit_of_mem_toDigits (by decide) (by decide) member
  have value : digitsValue (Nat.toDigits 10 n) = n := Nat.ofDigitChars_toDigits (by decide) (by decide)
  have decimal := decimal_digitsValue Nat.toDigits_ne_nil digits
  rwa [value] at decimal

theorem numeral_text (n : Int) : Numeral (toString n).toList n := by
  cases n with
  | ofNat n =>
    have text : (toString (Int.ofNat n)).toList = Nat.toDigits 10 n := Nat.toList_repr
    rw [text]
    exact .bare (decimal_digits n)
  | negSucc n =>
    have text : (toString (Int.negSucc n)).toList = '-' :: Nat.toDigits 10 (n + 1) := by
      show ("-" ++ Nat.repr (n + 1)).toList = _
      rw [String.toList_append,Nat.toList_repr]
      rfl
    rw [text]
    exact .minus (decimal_digits (n + 1))

theorem symbolChar_digit {c : Char} (digit : c.isDigit = true) : SymbolChar c := by
  left
  simp [Text.isAlphanumeric,Char.isAlphanum,digit]

theorem Reader.Numeral.chars {cs : List Char} {n : Int} (numeral : Numeral cs n) :
    cs ≠ [] ∧ ∀ c ∈ cs, SymbolChar c := by
  have signed {sign : Char} (mark : SymbolChar sign) {digits : List Char} {k : Nat}
      (decimal : Decimal digits k) : ∀ c ∈ sign :: digits, SymbolChar c := by
    intro c member
    rcases mem_cons.mp member with rfl | member
    · exact mark
    · exact symbolChar_digit (decimal.digits.2 c member)
  cases numeral with
  | bare decimal =>
    exact ⟨decimal.digits.1,fun c member => symbolChar_digit (decimal.digits.2 c member)⟩
  | plus decimal | minus decimal => exact ⟨cons_ne_nil _ _,signed (.inr (by decide)) decimal⟩

theorem isSymbol_quote : IsSymbol "quote" where
  nonempty := by decide
  chars := by
    intro c member
    have all : "quote".toList.all isSymbolChar = true := by decide +kernel
    exact isSymbolChar_iff.mp (all_eq_true.mp all c member)
  notDot := by decide
  notNumeral := by
    intro n numeral
    have absent : integer? "quote".toList = none := by decide +kernel
    rw [integer?_iff.mpr numeral] at absent
    cases absent

end Words

section Printing

variable {rest : List Char} {more : List Token}

/-- No symbol character comes first, so a word may end here. -/
def Ends (rest : List Char) : Prop := ∀ c ∈ rest.head?, ¬ SymbolChar c

theorem ends_delimiter {c : Char} (delimiter : c ∈ [' ','\t','\r','\n','(',')','\'',';']) : Ends (c :: rest) := by
  intro d first
  rw [← Option.some.inj first]
  exact isSymbolChar_eq_false.mp (delimiter_not_symbol delimiter)

theorem cut_word {word : String} (nonempty : word.toList ≠ [])
    (chars : ∀ c ∈ word.toList, SymbolChar c) (ends : Ends rest) (cut : Cut rest more) :
    Cut (word.toList ++ rest) (.atom word :: more) := by
  have whole := Cut.atom nonempty chars ends cut
  rwa [String.ofList_toList] at whole

theorem cut_integer (n : Int) (ends : Ends rest) (cut : Cut rest more) :
    Cut ((toString n).toList ++ rest) (.atom (toString n) :: more) :=
  cut_word (numeral_text n).chars.1 (numeral_text n).chars.2 ends cut

theorem Reader.IsSymbol.cut {name : String} (symbol : IsSymbol name) (ends : Ends rest)
    (cut : Cut rest more) : Cut (name.toList ++ rest) (.atom name :: more) :=
  cut_word symbol.nonempty symbol.chars ends cut

theorem cut_dot (cut : Cut rest more) :
    Cut (" . ".toList ++ rest) (.atom "." :: more) := by
  have mark : ∀ c ∈ ".".toList, SymbolChar c := fun c member => .inr (by simp_all)
  have dot : Cut (".".toList ++ ' ' :: rest) (.atom "." :: more) :=
    cut_word (by decide) mark (ends_delimiter (by decide)) (.space (by decide) cut)
  exact .space (by decide) dot

theorem ends_tailText (d : Datum) (ends : Ends rest) : Ends (d.tailText.toList ++ rest) := by
  have spaced (text : String) : Ends ((" " ++ text).toList ++ rest) := by
    rw [String.toList_append]
    exact ends_delimiter (by decide)
  cases d with
  | nil => exact ends
  | int n => exact spaced (". " ++ toString n.toInt)
  | sym name => exact spaced (". " ++ name)
  | cons head tail => simpa [Datum.tailText] using spaced (head.text ++ tail.tailText)

/-- The text of a datum is cut into its tokens, and so is the rest of a list. -/
theorem Datum.Readable.cut {d : Datum} (readable : d.Readable) (ends : Ends rest) (cut : Cut rest more) :
    Cut (d.text.toList ++ rest) (d.tokens ++ more) ∧ Cut (d.tailText.toList ++ rest) (d.tailTokens ++ more) := by
  induction readable generalizing rest more with
  | int n =>
    have here := cut_integer n.toInt ends cut
    refine ⟨here,?_⟩
    simpa [tailText,tailTokens] using cut_dot here
  | sym symbol =>
    have here := symbol.cut ends cut
    refine ⟨here,?_⟩
    simpa [tailText,tailTokens] using cut_dot here
  | nil =>
    refine ⟨?_,by simpa [tailText,tailTokens] using cut⟩
    simpa [text,tokens] using Cut.openParen (.closeParen cut)
  | @cons head tail _ _ ihHead ihTail =>
    constructor
    · have closing : Ends (')' :: rest) := ends_delimiter (by decide)
      have items := (ihHead (ends_tailText tail closing) (ihTail closing (.closeParen cut)).2).1
      simpa [text,tokens] using Cut.openParen items
    · have items := (ihHead (ends_tailText tail ends) (ihTail ends cut).2).1
      have spaced := Cut.space (c := ' ') (by decide) items
      simpa [tailText,tailTokens] using spaced

end Printing

/-- What the rest of a list derives: its items, or its items and the tail after a dot. -/
inductive Datum.TailDerives (tokens : List Token) : Datum → Prop where
  | proper {items} : DerivesEach tokens items → TailDerives tokens (.ofList items)
  | dotted {front back items last} :
      tokens = front ++ .atom "." :: back → DerivesEach front items → Derives back last →
      TailDerives tokens (.ofListTail items last)

variable {datum head tail : Datum} {first tokens : List Token} {source : String}

theorem Datum.TailDerives.cons (item : Derives first head) (derives : tail.TailDerives tokens) :
    (Datum.cons head tail).TailDerives (first ++ tokens) := by
  cases derives with
  | proper each => exact .proper (.cons item each)
  | dotted split each last =>
    have whole := DerivesEach.cons item each
    exact .dotted (by rw [split,append_assoc]) whole last

theorem Datum.TailDerives.list (item : Derives first head) (derives : tail.TailDerives tokens) :
    Derives (.openParen :: (first ++ (tokens ++ [.closeParen]))) (.cons head tail) := by
  cases derives with
  | @proper items each =>
    have whole : Derives _ (.cons head (.ofList items)) := .list (.cons item each)
    simpa using whole
  | @dotted _ _ items final split each last =>
    have whole : Derives _ (.cons head (.ofListTail items final)) :=
      .dotted (.cons item each) (cons_ne_nil _ _) last
    rw [split]
    simpa using whole

theorem Datum.Readable.derives {d : Datum} (readable : d.Readable) :
    Derives d.tokens d ∧ d.TailDerives d.tailTokens := by
  have atomic {last : Datum} {word : String} (derives : Derives [.atom word] last) :
      last.TailDerives [.atom ".",.atom word] :=
    @TailDerives.dotted _ [] [.atom word] [] last rfl .nil derives
  induction readable with
  | int n =>
    have here : Derives [.atom (toString n.toInt)] (.int n) := .int (numeral_text n.toInt)
    exact ⟨here,atomic here⟩
  | sym symbol =>
    have here := Derives.sym symbol.notNumeral symbol.notDot
    exact ⟨here,atomic here⟩
  | nil => exact ⟨.list .nil,.proper .nil⟩
  | cons _ _ ihHead ihTail => exact ⟨ihTail.2.list ihHead.1,ihTail.2.cons ihHead.1⟩

theorem read_of_derives (cut : Cut source.toList tokens) (derives : Derives tokens datum) :
    read source = .ok datum := by
  obtain ⟨place,found⟩ := derives.reads (lexemes source) (cut.scan 0) [] []
  rw [append_nil] at found
  exact read_ok_iff_readFirst.mpr found

theorem derives_of_read (found : read source = .ok datum) :
    ∃ tokens, Cut source.toList tokens ∧ Derives tokens datum := by
  obtain ⟨used,whole,derives⟩ := readFirst_derives .nil (read_ok_iff_readFirst.mp found)
  rw [append_nil] at whole
  rw [← whole,nil_append] at derives
  exact ⟨_,cut_scan fun c => derives.no_stray c,derives⟩

theorem Reader.Cut.atoms {cs : List Char} (cut : Cut cs tokens) :
    ∀ word, .atom word ∈ tokens → word.toList ≠ [] ∧ ∀ c ∈ word.toList, SymbolChar c := by
  induction cut with
  | done => simp
  | space _ _ ih => exact ih
  | comment _ _ _ _ ih => exact ih
  | openParen _ ih => simpa using ih
  | closeParen _ ih => simpa using ih
  | quoteMark _ ih => simpa using ih
  | atom nonempty chars _ _ ih =>
    intro word member
    rcases mem_cons.mp member with same | member
    · cases same
      rw [String.toList_ofList]
      exact ⟨nonempty,chars⟩
    · exact ih word member

theorem Datum.readable_ofListTail {items : List Datum} {last : Datum}
    (each : ∀ d ∈ items, d.Readable) (readable : last.Readable) :
    (Datum.ofListTail items last).Readable := by
  induction items with
  | nil => exact readable
  | cons d items ih =>
    exact .cons (each d mem_cons_self) (ih fun e member => each e (.tail _ member))

mutual

theorem Reader.Derives.readable {tokens : List Token} {d : Datum} : Derives tokens d →
    (∀ word, .atom word ∈ tokens → word.toList ≠ [] ∧ ∀ c ∈ word.toList, SymbolChar c) →
    d.Readable
  | .int _,_ => .int _
  | .sym notNumeral notDot,words =>
    have word := words _ mem_cons_self
    .sym ⟨word.1,word.2,notDot,notNumeral⟩
  | .list inner,words =>
    Datum.readable_ofListTail (inner.readable fun word member => words word (by simp [member])) .nil
  | .dotted front _ back,words =>
    Datum.readable_ofListTail (front.readable fun word member => words word (by simp [member]))
      (back.readable fun word member => words word (by simp [member]))
  | .quotation inner,words =>
    have quoted := inner.readable fun word member => words word (by simp [member])
    .cons (.sym isSymbol_quote) (.cons quoted .nil)

theorem Reader.DerivesEach.readable {tokens : List Token} {items : List Datum} : DerivesEach tokens items →
    (∀ word, .atom word ∈ tokens → word.toList ≠ [] ∧ ∀ c ∈ word.toList, SymbolChar c) →
    ∀ d ∈ items, d.Readable
  | .nil,_ => by simp
  | .cons first rest,words => by
    have head := first.readable fun word member => words word (by simp [member])
    have tail := rest.readable fun word member => words word (by simp [member])
    exact forall_mem_cons.mpr ⟨head,tail⟩

end

section Values

variable {v : Value} {d : Datum}

theorem Value.datum?_pair {cell : Nat} {head tail : Value} (made : (Value.pair cell head tail).datum? = some d) :
    ∃ a b, head.datum? = some a ∧ tail.datum? = some b ∧ d = .cons a b := by
  obtain ⟨a,first,rest⟩ := Option.bind_eq_some_iff.mp made
  obtain ⟨b,second,rfl⟩ := Option.map_eq_some_iff.mp rest
  exact ⟨a,b,first,second,rfl⟩

theorem Value.text_datum (made : v.datum? = some d) : v.text = d.text ∧ v.tailText = d.tailText := by
  induction v generalizing d with
  | int | sym | nil =>
    cases made
    exact ⟨rfl,rfl⟩
  | pair cell head tail ihHead ihTail =>
    obtain ⟨a,b,first,second,rfl⟩ := datum?_pair made
    obtain ⟨headText,_⟩ := ihHead first
    obtain ⟨_,rest⟩ := ihTail second
    simp [text,tailText,Datum.text,Datum.tailText,headText,rest]
  | _ => cases made

theorem Value.ofDatum_datum (d : Datum) (next : Nat) : (ofDatum d next).1.datum? = some d := by
  induction d generalizing next with
  | cons head tail ihHead ihTail => simp [ofDatum,datum?,ihHead,ihTail]
  | _ => rfl

theorem Value.same_datum {w : Value} (first : v.datum? = some d) (second : w.datum? = some d) : v.same w := by
  induction v generalizing w d with
  | int | sym | nil =>
    cases first
    cases w with
    | int | sym | nil => cases second <;> simp [same]
    | pair => obtain ⟨_,_,_,_,other⟩ := datum?_pair second; cases other
    | _ => cases second
  | pair cell head tail ihHead ihTail =>
    obtain ⟨a,b,headMade,tailMade,rfl⟩ := datum?_pair first
    cases w with
    | pair =>
      obtain ⟨_,_,headMade',tailMade',same⟩ := datum?_pair second
      cases same
      simp [same,ihHead headMade headMade',ihTail tailMade tailMade']
    | _ => cases second
  | _ => cases first

end Values

/-- A value made of integers, the empty list, pairs and names that are read as symbols is read back
from its text; and every value that is read is of that kind, so its text is read as it again. -/
theorem read_text :
    (∀ v d, Value.datum? v = some d → d.Readable →
      read v.text = .ok d ∧ ∀ next, (Value.ofDatum d next).1.same v) ∧
    ∀ source d, read source = .ok d →
      d.Readable ∧ ∀ next, read (Value.ofDatum d next).1.text = .ok d := by
  have back (v : Value) (d : Datum) (made : v.datum? = some d) (readable : d.Readable) :
      read v.text = .ok d := by
    have ends : Ends [] := by
      intro c first
      cases first
    have cut := (readable.cut ends .done).1
    rw [append_nil,append_nil] at cut
    rw [(Value.text_datum made).1]
    exact read_of_derives cut readable.derives.1
  constructor
  · intro v d made readable
    exact ⟨back v d made readable,fun next => Value.same_datum (Value.ofDatum_datum d next) made⟩
  · intro source d found
    obtain ⟨tokens,cut,derives⟩ := derives_of_read found
    have readable := derives.readable cut.atoms
    exact ⟨readable,fun next => back _ d (Value.ofDatum_datum d next) readable⟩

/-- A dotted pair of a negative number and a quoted mark is read back from its text. -/
theorem read_text_dotted :
    let v := Value.pair 0 (.int (-7)) (.pair 1 (.pair 2 .nil (.sym "quote")) (.sym "quote"))
    let d := Datum.cons (.int (-7)) (.cons (.cons .nil (.sym "quote")) (.sym "quote"))
    v.datum? = some d ∧ d.Readable ∧ read v.text = .ok d ∧
      ∀ next, (Value.ofDatum d next).1.same v := by
  intro v d
  have made : v.datum? = some d := rfl
  have quoted : (Datum.sym "quote").Readable := .sym isSymbol_quote
  have readable : d.Readable := .cons (.int _) (.cons (.cons .nil quoted) quoted)
  exact ⟨made,readable,read_text.1 v d made readable⟩

end StagedLisp
