import Mathlib.Data.List.TakeWhile
import StagedLisp.Reader.Lexeme

/-! How a text is cut into tokens. `Cut` says it by rules, without positions; scanning a text without
stray characters finds the tokens the rules give, and a text with one has none. -/
namespace StagedLisp.Reader

open List

/-- The end of the text or of a line, which is where a comment stops. -/
def LineEnd (cs : List Char) : Prop :=
  cs = [] ∨ (∃ rest, cs = '\n' :: rest) ∨ ∃ rest, cs = '\r' :: '\n' :: rest

def SymbolChar (c : Char) : Prop :=
  Text.isAlphanumeric c = true ∨ c ∈ ['+','-','*','/','<','>','=','!','?','_','$','%','&','.',':','^','~']

/-- The whole text consists of the tokens, in order, with spaces and comments between them. An atom
goes on as long as there are symbol characters. -/
inductive Cut : List Char → List Token → Prop where
  | done : Cut [] []
  | space {c rest tokens} : c ∈ [' ','\t','\r','\n'] → Cut rest tokens → Cut (c :: rest) tokens
  | comment {line rest tokens} :
      '\r' ∉ line → '\n' ∉ line → LineEnd rest → Cut rest tokens → Cut (';' :: (line ++ rest)) tokens
  | openParen {rest tokens} : Cut rest tokens → Cut ('(' :: rest) (.openParen :: tokens)
  | closeParen {rest tokens} : Cut rest tokens → Cut (')' :: rest) (.closeParen :: tokens)
  | quoteMark {rest tokens} : Cut rest tokens → Cut ('\'' :: rest) (.quoteMark :: tokens)
  | atom {word rest tokens} :
      word ≠ [] → (∀ c ∈ word, SymbolChar c) → (∀ c ∈ rest.head?, ¬ SymbolChar c) → Cut rest tokens →
        Cut (word ++ rest) (.atom (String.ofList word) :: tokens)

variable {cs rest : List Char} {c : Char} {p : Char → Bool}

theorem endsLine_iff : endsLine cs = true ↔ LineEnd cs := by
  constructor
  · intro ends
    unfold endsLine at ends
    split at ends
    · exact .inl rfl
    · exact .inr (.inl ⟨_,rfl⟩)
    · exact .inr (.inr ⟨_,rfl⟩)
    · cases ends
  · rintro (rfl | ⟨rest,rfl⟩ | ⟨rest,rfl⟩) <;> rfl

theorem isSymbolChar_iff : isSymbolChar c = true ↔ SymbolChar c := by
  have marks : symbolMarks =
      ['+','-','*','/','<','>','=','!','?','_','$','%','&','.',':','^','~'] := by decide +kernel
  rw [isSymbolChar,marks,Bool.or_eq_true,contains_iff_mem]
  exact Iff.rfl

theorem isSymbolChar_eq_false : isSymbolChar c = false ↔ ¬ SymbolChar c := by
  rw [← isSymbolChar_iff,Bool.not_eq_true]

theorem isSpace_iff : isSpace c = true ↔ c ∈ [' ','\t','\r','\n'] := by
  simp [isSpace,or_assoc]

theorem continuesLine_iff : continuesLine c = true ↔ c ≠ '\r' ∧ c ≠ '\n' := by
  simp [continuesLine]

theorem delimiter_not_symbol (delimiter : c ∈ [' ','\t','\r','\n','(',')','\'',';']) : isSymbolChar c = false := by
  have all : [' ','\t','\r','\n','(',')','\'',';'].all (fun c => !isSymbolChar c) = true := by
    decide +kernel
  simpa using all_eq_true.mp all c delimiter

theorem span_append {front : List Char} (all : ∀ c ∈ front, p c = true) (stops : ∀ c ∈ rest.head?, p c = false) :
    (front ++ rest).takeWhile p = front ∧ (front ++ rest).dropWhile p = rest := by
  have stopped : rest.takeWhile p = [] ∧ rest.dropWhile p = rest := by
    cases rest with
    | nil => exact ⟨rfl,rfl⟩
    | cons c rest => simp [stops c rfl]
  rw [takeWhile_append_of_pos all,dropWhile_append_of_pos all,stopped.1,stopped.2]
  exact ⟨append_nil _,rfl⟩

theorem head_dropWhile : ∀ c ∈ (cs.dropWhile p).head?, p c = false := by
  intro c found
  have := head?_dropWhile_not p cs
  rw [found] at this
  simpa using this

theorem LineEnd.stops (ends : LineEnd rest) : ∀ c ∈ rest.head?, continuesLine c = false := by
  rcases ends with rfl | ⟨rest,rfl⟩ | ⟨rest,rfl⟩ <;> simp [continuesLine]

section Scan

variable {c : Char} {rest : List Char} {position : Nat}

theorem scan_space (blank : isSpace c = true) : scan (c :: rest) position = scan rest (position + 1) := by
  rw [scan,if_pos blank]

theorem scan_atom (symbol : isSymbolChar c = true) : let word := c :: rest.takeWhile isSymbolChar
    scan (c :: rest) position = ⟨.atom (String.ofList word),position,position + byteSize word⟩ ::
        scan (rest.dropWhile isSymbolChar) (position + byteSize word) := by
  have other (d : Char) (delimiter : d ∈ [' ','\t','\r','\n','(',')','\'',';']) : c ≠ d := by
    rintro rfl
    rw [delimiter_not_symbol delimiter] at symbol
    cases symbol
  have blank : isSpace c = false := by simp [isSpace,other]
  rw [scan]
  simp [blank,other,symbol]

theorem scan_comment (ends : endsLine (rest.dropWhile continuesLine) = true) :
    scan (';' :: rest) position = scan (rest.dropWhile continuesLine)
      (position + 1 + byteSize (rest.takeWhile continuesLine)) := by
  have symbol : isSymbolChar ';' = false := delimiter_not_symbol (by simp)
  rw [scan]
  simp [isSpace,symbol,ends]

end Scan

theorem Cut.scan {tokens : List Token} (cut : Cut cs tokens) (position : Nat) :
    (scan cs position).map Lexeme.token = tokens := by
  induction cut generalizing position with
  | done => simp [Reader.scan]
  | space blank _ ih => rw [scan_space (isSpace_iff.mpr blank),ih]
  | @comment line rest _ noReturn noFeed ends _ ih =>
    have continues : ∀ c ∈ line, continuesLine c = true := by
      intro c member
      refine continuesLine_iff.mpr ⟨?_,?_⟩
      · rintro rfl
        exact noReturn member
      · rintro rfl
        exact noFeed member
    obtain ⟨_,dropped⟩ := span_append continues ends.stops
    have found : endsLine ((line ++ rest).dropWhile continuesLine) = true := by
      rw [dropped]
      exact endsLine_iff.mpr ends
    rw [scan_comment found,dropped,ih]
  | openParen _ ih | closeParen _ ih | quoteMark _ ih => simp [Reader.scan,isSpace,ih]
  | @atom word rest _ nonempty symbols stops _ ih =>
    cases word with
    | nil => exact absurd rfl nonempty
    | cons c word =>
      obtain ⟨taken,dropped⟩ :=
        span_append (fun d member => isSymbolChar_iff.mpr (symbols d (.tail _ member)))
          fun d next => isSymbolChar_eq_false.mpr (stops d next)
      have first := isSymbolChar_iff.mpr (symbols c mem_cons_self)
      rw [cons_append,scan_atom first,taken,dropped,map_cons,ih]

/-- A text in which scanning meets no stray character consists of the tokens found. -/
theorem cut_scan {position : Nat} (clean : ∀ c, .stray c ∉ (scan cs position).map Lexeme.token) :
    Cut cs ((scan cs position).map Lexeme.token) := by
  fun_induction scan cs position with
  | case1 => exact .done
  | case2 position c rest blank ih => exact .space (isSpace_iff.mp blank) (ih clean)
  | case3 position c rest _ paren ih =>
    rw [beq_iff_eq.mp paren]
    exact .openParen (ih fun d member => clean d (.tail _ member))
  | case4 position c rest _ _ paren ih =>
    rw [beq_iff_eq.mp paren]
    exact .closeParen (ih fun d member => clean d (.tail _ member))
  | case5 position c rest _ _ _ mark ih =>
    rw [beq_iff_eq.mp mark]
    exact .quoteMark (ih fun d member => clean d (.tail _ member))
  | case6 position c rest _ _ _ _ symbol word stop ih =>
    have parts : c :: rest = word ++ rest.dropWhile isSymbolChar := by
      rw [cons_append,takeWhile_append_dropWhile]
    rw [parts]
    apply Cut.atom (cons_ne_nil _ _)
    · intro d member
      rw [← isSymbolChar_iff]
      rcases mem_cons.mp member with rfl | member
      · exact symbol
      · exact mem_takeWhile_imp member
    · exact fun d next => isSymbolChar_eq_false.mp (head_dropWhile d next)
    · exact ih fun d member => clean d (.tail _ member)
  | case7 position c rest _ _ _ _ _ comment ih =>
    obtain ⟨mark,ends⟩ := Bool.and_eq_true_iff.mp comment
    have continues (d : Char) (member : d ∈ rest.takeWhile continuesLine) :=
      continuesLine_iff.mp (mem_takeWhile_imp member)
    have whole := Cut.comment (fun member => (continues _ member).1 rfl)
      (fun member => (continues _ member).2 rfl) (endsLine_iff.mp ends) (ih clean)
    rw [takeWhile_append_dropWhile] at whole
    exact beq_iff_eq.mp mark ▸ whole
  | case8 position c rest => exact absurd mem_cons_self (clean c)

end StagedLisp.Reader
