import Mathlib.Data.List.Induction
import StagedLisp.Proofs.Reader.Tokens
import StagedLisp.Reader.Read

/-! The reader accepts exactly its grammar. `Derives` gives the grammar over tokens. A derivation
drives the reader past its tokens, from whatever is open; conversely the tokens that led to a stack
of open frames are derived as far as the frames hold data, so a datum that is done is derived. -/
namespace StagedLisp.Reader

open List

/-- One or more decimal digits, and the number they stand for. -/
inductive Decimal : List Char → Nat → Prop where
  | one {c} : c.isDigit = true → Decimal [c] (c.toNat - '0'.toNat)
  | more {digits n c} : Decimal digits n → c.isDigit = true →
      Decimal (digits ++ [c]) (10 * n + (c.toNat - '0'.toNat))

/-- Digits after an optional sign, and the integer they stand for. -/
inductive Numeral : List Char → Int → Prop where
  | bare {digits n} : Decimal digits n → Numeral digits n
  | plus {digits n} : Decimal digits n → Numeral ('+' :: digits) n
  | minus {digits n} : Decimal digits n → Numeral ('-' :: digits) (-n)

mutual

/-- The tokens are those of the datum. -/
inductive Derives : List Token → Datum → Prop where
  | int {word value} : Numeral word.toList value.toInt → Derives [.atom word] (.int value)
  | sym {word} : (∀ n, ¬ Numeral word.toList n) → word ≠ "." →
      Derives [.atom word] (.sym word)
  | list {inner items} : DerivesEach inner items → Derives (.openParen :: (inner ++ [.closeParen])) (.ofList items)
  | dotted {front back items last} : DerivesEach front items → items ≠ [] → Derives back last →
      Derives (.openParen :: (front ++ .atom "." :: (back ++ [.closeParen])))
        (.ofListTail items last)
  | quotation {tokens datum} : Derives tokens datum →
      Derives (.quoteMark :: tokens) (.ofList [.sym "quote",datum])

inductive DerivesEach : List Token → List Datum → Prop where
  | nil : DerivesEach [] []
  | cons {first rest datum data} :
      Derives first datum → DerivesEach rest data → DerivesEach (first ++ rest) (datum :: data)

end

variable {cs : List Char} {n : Nat} {datum : Datum} {stack : List Frame} {before : List Token}
  {progress : Progress} {word : String}

theorem Decimal.digits (decimal : Decimal cs n) : cs ≠ [] ∧ ∀ c ∈ cs, c.isDigit = true := by
  induction decimal with
  | one digit => simpa using digit
  | more _ digit ih =>
    refine ⟨by simp,?_⟩
    exact forall_mem_append.mpr ⟨ih.2,fun _ member => mem_singleton.mp member ▸ digit⟩

theorem digitsValue_snoc (digits : List Char) (c : Char) :
    digitsValue (digits ++ [c]) = 10 * digitsValue digits + (c.toNat - '0'.toNat) := by
  simp [digitsValue]

theorem decimal_digitsValue (nonempty : cs ≠ []) (digits : ∀ c ∈ cs, c.isDigit = true) :
    Decimal cs (digitsValue cs) := by
  induction cs using List.reverseRecOn with
  | nil => exact absurd rfl nonempty
  | append_singleton front c ih =>
    have digit := digits c (by simp)
    rw [digitsValue_snoc]
    cases front with
    | nil => simpa [digitsValue] using Decimal.one digit
    | cons first front =>
      exact .more (ih (cons_ne_nil _ _) fun d member => digits d (mem_append_left _ member)) digit

theorem Decimal.value (decimal : Decimal cs n) : digitsValue cs = n := by
  induction decimal with
  | one _ => simp [digitsValue]
  | more _ _ ih => rw [digitsValue_snoc,ih]

theorem digits?_iff : digits? cs = some n ↔ Decimal cs n := by
  unfold digits?
  constructor
  · intro found
    split at found
    · next shape =>
      rw [← Option.some.inj found]
      exact decimal_digitsValue shape.1 (all_eq_true.mp shape.2)
    · cases found
  · intro decimal
    rw [if_pos ⟨decimal.digits.1,all_eq_true.mpr decimal.digits.2⟩,decimal.value]

theorem signed_digits? {f : Int → Int} {n : Int} : Option.map f (do let k ← digits? cs; pure (k : Int)) = some n ↔
      ∃ k : Nat, Decimal cs k ∧ f k = n := by
  simp only [← digits?_iff]
  cases digits? cs <;> simp

theorem Decimal.head {c : Char} (decimal : Decimal (c :: cs) n) : c ≠ '+' ∧ c ≠ '-' := by
  have digit := decimal.digits.2 c mem_cons_self
  constructor <;> rintro rfl <;> cases digit

theorem Numeral.ne_dot {n : Int} (numeral : Numeral word.toList n) : word ≠ "." := by
  rintro rfl
  generalize written : ".".toList = cs at numeral
  cases numeral with
  | bare decimal =>
    have digit := decimal.digits.2 '.' (written ▸ by decide)
    cases digit
  | plus _ => cases written
  | minus _ => cases written

theorem integer?_iff {n : Int} : integer? cs = some n ↔ Numeral cs n := by
  constructor
  · intro found
    unfold integer? at found
    split at found
    · obtain ⟨k,decimal,rfl⟩ := signed_digits?.mp found
      exact .minus decimal
    · obtain ⟨k,decimal,rfl⟩ := signed_digits?.mp found
      exact .plus decimal
    · obtain ⟨k,decimal,rfl⟩ := signed_digits?.mp found
      exact .bare decimal
  · intro numeral
    cases numeral with
    | @bare _ n decimal =>
      unfold integer?
      split
      · exact absurd rfl decimal.head.2
      · exact absurd rfl decimal.head.1
      · exact signed_digits?.mpr ⟨n,decimal,rfl⟩
    | plus decimal | minus decimal => exact signed_digits?.mpr ⟨_,decimal,rfl⟩

theorem atom_ok_iff (notDot : word ≠ ".") : atom word = .ok datum ↔ Derives [.atom word] datum := by
  unfold atom
  constructor
  · intro read
    split at read
    · next n found =>
      split at read
      · next value fits =>
        cases read
        exact .int (Word.ofInt?_iff.mp fits ▸ integer?_iff.mp found)
      · cases read
    · next none =>
      cases read
      refine .sym ?_ notDot
      intro n numeral
      rw [integer?_iff.mpr numeral] at none
      cases none
  · intro derives
    cases derives with
    | int numeral =>
      rw [integer?_iff.mpr numeral]
      dsimp only
      rw [Word.ofInt?_iff.mpr rfl]
    | sym symbol _ =>
      have absent : integer? word.toList = none :=
        Option.eq_none_iff_forall_ne_some.mpr fun n found => symbol n (integer?_iff.mp found)
      rw [absent]

theorem DerivesEach.snoc {front back : List Token} {items : List Datum} :
    DerivesEach front items → Derives back datum → DerivesEach (front ++ back) (items ++ [datum])
  | .nil,last => by simpa using DerivesEach.cons last .nil
  | .cons first rest,last => by
    rw [append_assoc]
    exact .cons first (rest.snoc last)

/-- A frame that is open takes a finished datum, or the datum is what was to be read. -/
def resume (stop : Nat) (rest : List Lexeme) : Except Rejection Progress → Except Rejection (Datum × List Lexeme)
  | .error rejection => .error rejection
  | .ok (.pending stack) => readFirst stop rest stack
  | .ok (.done datum) => .ok (datum,rest)

theorem readFirst_cons (stop : Nat) (lexeme : Lexeme) (rest : List Lexeme) (stack : List Frame) :
    readFirst stop (lexeme :: rest) stack = resume stop rest (step stack lexeme) := by
  rw [readFirst]
  cases step stack lexeme with
  | error => rfl
  | ok progress => cases progress <;> rfl

section Completeness

variable {stop : Nat}

variable {lexeme : Lexeme}

theorem readFirst_open (paren : lexeme.token = .openParen) (rest : List Lexeme)
    (stack : List Frame) : readFirst stop (lexeme :: rest) stack =
      readFirst stop rest (.items [] lexeme.start :: stack) := by
  rw [readFirst_cons,step,paren]
  rfl

theorem readFirst_close (paren : lexeme.token = .closeParen) (rest : List Lexeme)
    (stack : List Frame) : readFirst stop (lexeme :: rest) stack =
      resume stop rest (close lexeme.start lexeme.stop stack) := by
  rw [readFirst_cons,step,paren]

theorem readFirst_quote (mark : lexeme.token = .quoteMark) (rest : List Lexeme)
    (stack : List Frame) : readFirst stop (lexeme :: rest) stack = readFirst stop rest (.quotation :: stack) := by
  rw [readFirst_cons,step,mark]
  rfl

theorem readFirst_dot (dot : lexeme.token = .atom ".") {read : List Datum} (nonempty : read ≠ [])
    (rest : List Lexeme) (opened : Nat) (stack : List Frame) :
    readFirst stop (lexeme :: rest) (.items read opened :: stack) =
      readFirst stop rest (.dotted read opened :: stack) := by
  obtain ⟨item,read,rfl⟩ := exists_cons_of_ne_nil nonempty
  rw [readFirst_cons,step,dot]
  rfl

theorem readFirst_atom {word : String} (atom : lexeme.token = .atom word) (notDot : word ≠ ".")
    (derives : Derives [.atom word] datum) (rest : List Lexeme) (stack : List Frame) :
    readFirst stop (lexeme :: rest) stack = resume stop rest (deliver lexeme.stop stack datum) := by
  rw [readFirst_cons,step,atom]
  dsimp only
  rw [if_neg notDot,(atom_ok_iff notDot).mpr derives]

mutual

/-- A derivation leads the reader past its tokens, whatever is open, to where the datum is handed
on. -/
theorem Derives.reads {tokens : List Token} {datum : Datum} : Derives tokens datum →
    ∀ lexemes : List Lexeme, lexemes.map Lexeme.token = tokens → ∀ rest stack,
      ∃ place, readFirst stop (lexemes ++ rest) stack = resume stop rest (deliver place stack datum)
  | .int numeral,lexemes,cut,rest,stack => by
    obtain ⟨lexeme,rfl,word⟩ := map_eq_singleton_iff.mp cut
    exact ⟨lexeme.stop,readFirst_atom word (numeral.ne_dot) (.int numeral) rest stack⟩
  | .sym symbol notDot,lexemes,cut,rest,stack => by
    obtain ⟨lexeme,rfl,word⟩ := map_eq_singleton_iff.mp cut
    exact ⟨lexeme.stop,readFirst_atom word notDot (.sym symbol notDot) rest stack⟩
  | .list inner,lexemes,cut,rest,stack => by
    obtain ⟨opening,others,rfl,opens,cutOthers⟩ := map_eq_cons_iff.mp cut
    obtain ⟨within,last,rfl,cutWithin,cutLast⟩ := map_eq_append_iff.mp cutOthers
    obtain ⟨closing,rfl,closes⟩ := map_eq_singleton_iff.mp cutLast
    refine ⟨closing.stop,?_⟩
    rw [cons_append,readFirst_open opens,append_assoc,inner.reads within cutWithin,
      singleton_append,readFirst_close closes]
    simp [close]
  | @Derives.dotted _ _ items _ front nonempty back,lexemes,cut,rest,stack => by
    obtain ⟨opening,others,rfl,opens,cutOthers⟩ := map_eq_cons_iff.mp cut
    obtain ⟨within,others,rfl,cutWithin,cutOthers⟩ := map_eq_append_iff.mp cutOthers
    obtain ⟨dot,others,rfl,dotted,cutOthers⟩ := map_eq_cons_iff.mp cutOthers
    obtain ⟨tail,last,rfl,cutTail,cutLast⟩ := map_eq_append_iff.mp cutOthers
    obtain ⟨closing,rfl,closes⟩ := map_eq_singleton_iff.mp cutLast
    refine ⟨closing.stop,?_⟩
    have some : items.reverse ++ [] ≠ [] := by simpa using nonempty
    obtain ⟨place,read⟩ := back.reads tail cutTail (closing :: rest)
      (.dotted (items.reverse ++ []) opening.start :: stack)
    simp only [cons_append,append_assoc,nil_append]
    rw [readFirst_open opens,front.reads within cutWithin,readFirst_dot dotted some,read,deliver,
      resume,readFirst_close closes]
    simp [close]
  | .quotation inner,lexemes,cut,rest,stack => by
    obtain ⟨mark,others,rfl,quotes,cutOthers⟩ := map_eq_cons_iff.mp cut
    obtain ⟨place,read⟩ := inner.reads others cutOthers rest (.quotation :: stack)
    refine ⟨place,?_⟩
    rw [cons_append,readFirst_quote quotes,read,deliver,quotationOf]

theorem DerivesEach.reads {tokens : List Token} {items : List Datum} : DerivesEach tokens items →
    ∀ lexemes : List Lexeme, lexemes.map Lexeme.token = tokens → ∀ rest read opened stack,
      readFirst stop (lexemes ++ rest) (.items read opened :: stack) =
        readFirst stop rest (.items (items.reverse ++ read) opened :: stack)
  | .nil,lexemes,cut,rest,read,opened,stack => by
    rw [map_eq_nil_iff.mp cut]
    rfl
  | .cons first others,lexemes,cut,rest,read,opened,stack => by
    obtain ⟨front,back,rfl,cutFront,cutBack⟩ := map_eq_append_iff.mp cut
    obtain ⟨place,read⟩ := first.reads front cutFront (back ++ rest) (.items read opened :: stack)
    rw [append_assoc,read,deliver]
    dsimp only [resume]
    rw [others.reads back cutBack]
    simp

end

end Completeness

/-- The tokens that led to a stack of open frames: each frame holds what was derived in it. -/
inductive Opened : List Frame → List Token → Prop where
  | nil : Opened [] []
  | quotation {stack : List Frame} {before : List Token} : Opened stack before →
      Opened (.quotation :: stack) (before ++ [.quoteMark])
  | items {stack : List Frame} {before inner : List Token} {read : List Datum} {opened : Nat} :
      Opened stack before → DerivesEach inner read.reverse →
      Opened (.items read opened :: stack) (before ++ .openParen :: inner)
  | dotted {stack : List Frame} {before inner : List Token} {read : List Datum} {opened : Nat} :
      Opened stack before → DerivesEach inner read.reverse → read ≠ [] →
      Opened (.dotted read opened :: stack) (before ++ .openParen :: (inner ++ [.atom "."]))
  | tailed {stack : List Frame} {before inner back : List Token} {read : List Datum} {tail : Datum}
      {opened : Nat} : Opened stack before → DerivesEach inner read.reverse → read ≠ [] →
      Derives back tail →
      Opened (.tailed read tail opened :: stack)
        (before ++ .openParen :: (inner ++ .atom "." :: back))

/-- What the reader has come to is justified by the tokens it has read. -/
def Progress.Justified (tokens : List Token) : Progress → Prop
  | .pending stack => Opened stack tokens
  | .done datum => Derives tokens datum

section

variable (opened : Opened stack before)

include opened

theorem deliver_justified {tokens : List Token} {place : Nat} (derives : Derives tokens datum)
    (delivered : deliver place stack datum = .ok progress) :
    progress.Justified (before ++ tokens) := by
  induction opened generalizing tokens datum with
  | nil =>
    cases delivered
    exact derives
  | quotation _ ih =>
    rw [append_assoc]
    exact ih (.quotation derives) delivered
  | items outer inner =>
    cases delivered
    rw [append_assoc,cons_append]
    exact .items outer (by simpa using inner.snoc derives)
  | dotted outer inner nonempty =>
    cases delivered
    simp only [append_assoc,cons_append,nil_append]
    exact .tailed outer inner nonempty derives
  | tailed => cases delivered

theorem close_justified {start stop : Nat} (closed : close start stop stack = .ok progress) :
    progress.Justified (before ++ [.closeParen]) := by
  cases opened with
  | nil => cases closed
  | quotation => cases closed
  | dotted => cases closed
  | items outer inner =>
    rw [append_assoc,cons_append]
    exact deliver_justified outer (.list inner) closed
  | tailed outer inner nonempty back =>
    simp only [append_assoc,cons_append]
    exact deliver_justified outer (.dotted inner (by simpa using nonempty) back) closed

theorem markDot_justified {start : Nat} (marked : markDot start stack = .ok progress) :
    progress.Justified (before ++ [.atom "."]) := by
  unfold markDot at marked
  split at marked
  · cases marked
    cases opened with
    | items outer inner =>
      rw [append_assoc,cons_append]
      exact .dotted outer inner (cons_ne_nil _ _)
  · cases marked

theorem step_justified {lexeme : Lexeme} (stepped : step stack lexeme = .ok progress) :
    progress.Justified (before ++ [lexeme.token]) := by
  unfold step at stepped
  split at stepped
  · next token =>
    cases stepped
    rw [token]
    exact .items opened .nil
  · next token =>
    rw [token]
    exact close_justified opened stepped
  · next token =>
    cases stepped
    rw [token]
    exact .quotation opened
  · cases stepped
  · next word token =>
    rw [token]
    split at stepped
    · next dot =>
      rw [dot]
      exact markDot_justified opened stepped
    · next notDot =>
      split at stepped
      · next datum read =>
        exact deliver_justified opened ((atom_ok_iff notDot).mp read) stepped
      · cases stepped

theorem readFirst_derives {stop : Nat} {lexemes rest : List Lexeme}
    (read : readFirst stop lexemes stack = .ok (datum,rest)) :
    ∃ used, lexemes = used ++ rest ∧ Derives (before ++ used.map Lexeme.token) datum := by
  induction lexemes generalizing stack before with
  | nil => cases read
  | cons lexeme lexemes ih =>
    rw [readFirst_cons] at read
    cases stepped : step stack lexeme with
    | error => simp [stepped,resume] at read
    | ok progress =>
      have justified := step_justified opened stepped
      rw [stepped] at read
      cases progress with
      | pending stack =>
        obtain ⟨used,rfl,derives⟩ := ih justified read
        exact ⟨lexeme :: used,rfl,by simpa using derives⟩
      | done found =>
        cases read
        exact ⟨[lexeme],rfl,justified⟩

end

mutual

theorem Derives.no_stray {tokens : List Token} {datum : Datum} (c : Char) : Derives tokens datum → .stray c ∉ tokens
  | .int _ => by simp
  | .sym _ _ => by simp
  | .list inner => by simpa using inner.no_stray c
  | .dotted front _ back => by simpa using ⟨front.no_stray c,back.no_stray c⟩
  | .quotation inner => by simpa using inner.no_stray c

theorem DerivesEach.no_stray {tokens : List Token} {items : List Datum} (c : Char) :
    DerivesEach tokens items → .stray c ∉ tokens
  | .nil => by simp
  | .cons first rest => by simpa using ⟨first.no_stray c,rest.no_stray c⟩

end

theorem read_ok_iff_readFirst {source : String} : read source = .ok datum ↔
      readFirst source.utf8ByteSize (lexemes source) [] = .ok (datum,[]) := by
  unfold read readRejecting
  split
  · next failed => simp [failed,Except.mapError]
  · next found => simp [found,Except.mapError]
  · next found => simp [found,Except.mapError]

/-- A text is read as a datum if and only if it is cut into tokens from which the grammar derives
the datum. All other texts are reported. -/
theorem read_iff_derives (source : String) :
    (∀ datum, read source = .ok datum ↔
      ∃ tokens, Cut source.toList tokens ∧ Derives tokens datum) ∧
    ((∃ report, read source = .error report) ↔
      ¬ ∃ tokens datum, Cut source.toList tokens ∧ Derives tokens datum) := by
  have accepts (datum : Datum) : read source = .ok datum ↔
      ∃ tokens, Cut source.toList tokens ∧ Derives tokens datum := by
    rw [read_ok_iff_readFirst]
    constructor
    · intro found
      obtain ⟨used,whole,derives⟩ := readFirst_derives .nil found
      rw [append_nil] at whole
      rw [← whole,nil_append] at derives
      exact ⟨_,cut_scan fun c => derives.no_stray c,derives⟩
    · rintro ⟨tokens,cut,derives⟩
      obtain ⟨place,found⟩ := derives.reads (lexemes source) (cut.scan 0) [] []
      rwa [append_nil] at found
  refine ⟨accepts,?_⟩
  cases outcome : read source with
  | error report =>
    simp only [Except.error.injEq,exists_eq',true_iff]
    rintro ⟨tokens,datum,derives⟩
    have := (accepts datum).mpr ⟨tokens,derives⟩
    rw [outcome] at this
    cases this
  | ok datum =>
    obtain ⟨tokens,derives⟩ := (accepts datum).mp outcome
    simp only [reduceCtorEq,exists_false,false_iff,not_not]
    exact ⟨tokens,datum,derives⟩

end StagedLisp.Reader
