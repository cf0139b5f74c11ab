import StagedLisp.Proofs.Code.Scope

/-! Comments in the generated program, and the text that is left when they are deleted. -/
namespace StagedLisp.Code

open List

/-- What is left of a text without its comments, from each opening mark to the next closing one, and
whether the text ends inside a comment. -/
@[simp] def strip : (inside : Bool) → List Char → List Char × Bool
  | inside,[] => ([],inside)
  | false,'/' :: '*' :: rest => strip true rest
  | true,'*' :: '/' :: rest => strip false rest
  | false,c :: rest => (c :: (strip false rest).1,(strip false rest).2)
  | true,_ :: rest => strip true rest

def uncommented (text : String) : String := .ofList (strip false text.toList).1

/-- Inside a comment the text leads nowhere else, and nothing of it is left. -/
def Sealed (text : String) : Prop := strip true text.toList = ([],true)

/-- The text starts no comment. -/
def Bare (text : String) : Prop := text.toList.IsChain fun a b => ¬ (a = '/' ∧ b = '*')

/-- Neither mark of a comment lies across the place where the texts meet. -/
def Apart (a b : List Char) : Prop :=
  ∀ x ∈ a.getLast?, ∀ y ∈ b.head?, ¬ (x = '/' ∧ y = '*') ∧ ¬ (x = '*' ∧ y = '/')

section Strip

variable {a b : List Char} {c : Char}

theorem strip_code (other : ¬ (c = '/' ∧ b.head? = some '*')) :
    strip false (c :: b) = (c :: (strip false b).1,(strip false b).2) := by
  rw [strip]
  rintro rest rfl rfl
  exact other ⟨rfl,rfl⟩

theorem strip_inside (other : ¬ (c = '*' ∧ b.head? = some '/')) : strip true (c :: b) = strip true b := by
  rw [strip]
  rintro rest rfl rfl
  exact other ⟨rfl,rfl⟩

theorem Apart.tail (apart : Apart (c :: a) b) : Apart a b := by
  cases a with
  | nil => simp [Apart]
  | cons d a => exact apart

theorem strip_append (inside : Bool) (apart : Apart a b) : strip inside (a ++ b) =
    ((strip inside a).1 ++ (strip (strip inside a).2 b).1,(strip (strip inside a).2 b).2) := by
  fun_induction strip inside a with
  | case1 => rfl
  | case2 rest ih | case3 rest ih => exact ih apart.tail.tail
  | case4 c rest other ih =>
    rw [cons_append,strip_code,ih apart.tail]
    · rfl
    · rintro ⟨rfl,next⟩
      cases rest with
      | nil => exact (apart '/' rfl _ next).1 ⟨rfl,rfl⟩
      | cons d rest => exact other rest rfl (Option.some.inj next ▸ rfl)
  | case5 c rest other ih =>
    rw [cons_append,strip_inside,ih apart.tail]
    rintro ⟨rfl,next⟩
    cases rest with
    | nil => exact (apart '*' rfl _ next).2 ⟨rfl,rfl⟩
    | cons d rest => exact other rest rfl (Option.some.inj next ▸ rfl)

theorem strip_bare (bare : a.IsChain fun x y => ¬ (x = '/' ∧ y = '*')) : strip false a = (a,false) := by
  induction a with
  | nil => rfl
  | cons c a ih =>
    rw [isChain_cons] at bare
    rw [strip_code fun opens => bare.1 '*' opens.2 ⟨opens.1,rfl⟩,ih bare.2]

theorem strip_quiet (quiet : a.IsChain fun x y => ¬ (x = '*' ∧ y = '/')) : strip true a = ([],true) := by
  induction a with
  | nil => rfl
  | cons c a ih =>
    rw [isChain_cons] at quiet
    rw [strip_inside fun closes => quiet.1 '/' closes.2 ⟨closes.1,rfl⟩,ih quiet.2]

def shifted (c : Char) : List Char := if c = '\n' then ['\n',' ',' '] else [c]

theorem head_shifted (a : List Char) : (a.flatMap shifted).head? = a.head? := by
  cases a with
  | nil => rfl
  | cons c a =>
    rw [flatMap_cons,shifted]
    split
    · simp_all
    · rfl

theorem strip_shifted (inside : Bool) (a : List Char) :
    strip inside (a.flatMap shifted) = ((strip inside a).1.flatMap shifted,(strip inside a).2) := by
  fun_induction strip inside a with
  | case1 => rfl
  | case2 rest ih | case3 rest ih => exact ih
  | case4 c rest other ih =>
    rw [flatMap_cons,flatMap_cons,shifted]
    split
    · simp [ih]
    · rw [singleton_append,strip_code,ih]
      · rfl
      · rw [head_shifted]
        rintro ⟨rfl,next⟩
        obtain ⟨rest,rfl⟩ := head?_eq_some_iff.mp next
        exact other rest rfl rfl
  | case5 c rest other ih =>
    rw [flatMap_cons,shifted]
    split
    · simp [ih]
    · rw [singleton_append,strip_inside,ih]
      rw [head_shifted]
      rintro ⟨rfl,next⟩
      obtain ⟨rest,rfl⟩ := head?_eq_some_iff.mp next
      exact other rest rfl rfl

end Strip

section Lines

variable {words : String}

/-- A line of a block is code, with the words of a comment behind it if there is one. -/
def lineText (line : String × Option String) : String :=
  line.1 ++ (line.2.map comment).getD ""

def framed (lines : List String) : String :=
  "(\x7b\n" ++ String.join (lines.map indented) ++ "\x7d)"

theorem strip_comment (words : String) : ∃ left, strip false (comment words).toList = (left,false) ∧
    (left = [] ↔ Sealed words) := by
  have split : (comment words).toList = ['/','*',' '] ++ (words.toList ++ [' ','*','/']) := by
    simp [comment]
  have opens : strip false ['/','*',' '] = ([],true) := rfl
  simp only [split,strip_append false (show Apart ['/','*',' '] _ by simp [Apart]),opens,
    strip_append true (show Apart words.toList [' ','*','/'] by simp [Apart]),Sealed]
  obtain ⟨kept,inside⟩ := strip true words.toList
  cases inside with
  | false => exact ⟨kept ++ [' ','*','/'],rfl,by simp⟩
  | true => exact ⟨kept,by simp [strip],by simp⟩

theorem strip_line {line : String × Option String} (bare : Bare line.1) (ends : line.1.toList.getLast? ≠ some '*') :
    ∃ left, strip false (lineText line).toList = (line.1.toList ++ left,false) ∧
      (left = [] ↔ ∀ words ∈ line.2, Sealed words) := by
  rw [lineText,String.toList_append]
  cases line.2 with
  | none => exact ⟨[],by simpa using strip_bare bare,by simp⟩
  | some words =>
    obtain ⟨left,stripped,empty⟩ := strip_comment words
    have apart : Apart line.1.toList (comment words).toList := by
      rintro x last y head
      obtain rfl : '/' = y := by simpa [comment] using head
      exact ⟨by simp,fun closes => ends (closes.1 ▸ last)⟩
    refine ⟨left,?_,by simpa using empty⟩
    simp only [Option.map_some,Option.getD_some,strip_append false apart,strip_bare bare,stripped]

theorem toList_indented (line : String) :
    (indented line).toList = [' ',' '] ++ (line.toList.flatMap shifted ++ ['\n']) := by
  simp [indented,Text.replaceChar]
  rfl

theorem apart_indented (line : String) (b : List Char) : Apart (indented line).toList b := by
  rw [Apart,toList_indented,← append_assoc,getLast?_concat]
  simp

variable {lines : List (String × Option String)}

theorem strip_lines (bare : ∀ line ∈ lines, Bare line.1 ∧ line.1.toList.getLast? ≠ some '*') :
    let code := lines.flatMap fun line => (indented line.1).toList
    ∃ kept, strip false (lines.flatMap fun line => (indented (lineText line)).toList) = (kept,false) ∧
      code.length ≤ kept.length ∧
      (kept = code ↔ ∀ line ∈ lines, ∀ words ∈ line.2, Sealed words) := by
  induction lines with
  | nil => exact ⟨[],rfl,le_rfl,by simp⟩
  | cons line lines ih =>
    obtain ⟨left,first,empty⟩ := strip_line (bare line mem_cons_self).1 (bare line mem_cons_self).2
    obtain ⟨kept,rest,longer,same⟩ := ih fun other member => bare other (.tail _ member)
    have here : strip false (indented (lineText line)).toList =
        ([' ',' '] ++ ((line.1.toList ++ left).flatMap shifted ++ ['\n']),false) := by
      have blanks : strip false [' ',' '] = ([' ',' '],false) := rfl
      have break' : strip false ['\n'] = (['\n'],false) := rfl
      simp only [toList_indented,strip_append false (show Apart [' ',' '] _ by simp [Apart]),blanks,
        strip_append false (show Apart _ ['\n'] by simp [Apart]),strip_shifted,first,break']
    have both := strip_append false (apart_indented (lineText line)
      (lines.flatMap fun line => (indented (lineText line)).toList))
    simp only [here,rest] at both
    refine ⟨_,both,?_,?_⟩
    · simp only [flatMap_cons,toList_indented line.1,flatMap_append,length_append]
      omega
    · rw [forall_mem_cons,← empty,← same]
      constructor
      · intro equal
        have lengths := congrArg length equal
        simp only [flatMap_cons,toList_indented line.1,flatMap_append,length_append] at lengths
        have shown : left.flatMap shifted = [] := length_eq_zero_iff.mp (by omega)
        obtain rfl : left = [] := head?_eq_none_iff.mp (by rw [← head_shifted,shown]; rfl)
        simpa [toList_indented line.1] using equal
      · rintro ⟨rfl,rfl⟩
        simp [toList_indented line.1]

/-- Deleting the comments of a block leaves its code exactly if the words of no comment lead out of it. -/
theorem uncommented_framed (bare : ∀ line ∈ lines, Bare line.1 ∧ line.1.toList.getLast? ≠ some '*') :
    uncommented (framed (lines.map lineText)) = framed (lines.map Prod.fst) ↔
      ∀ line ∈ lines, ∀ words ∈ line.2, Sealed words := by
  obtain ⟨kept,stripped,_,same⟩ := strip_lines bare
  have text (f : String × Option String → String) : (framed (lines.map f)).toList =
      ['(','\x7b','\n'] ++ (lines.flatMap (fun line => (indented (f line)).toList) ++ ['\x7d',')']) := by
    simp [framed,flatMap_map]
  have opens : strip false ['(','\x7b','\n'] = (['(','\x7b','\n'],false) := rfl
  have closes : strip false ['\x7d',')'] = (['\x7d',')'],false) := rfl
  rw [← same,← String.toList_inj,uncommented,String.toList_ofList,text,text]
  simp only [strip_append false (show Apart ['(','\x7b','\n'] _ by simp [Apart]),opens,
    strip_append false (show Apart _ ['\x7d',')'] by simp [Apart]),stripped,closes,append_cancel_left_eq,
    append_cancel_right_eq]

end Lines

/-- Whether a text has the property can be told from its pieces, where they meet at a blank or at a mark
of punctuation. -/
structure Piecewise (P : String → Prop) : Prop where
  fixed : ∀ {text : String}, Quiet text → P text
  append : ∀ {a b : String}, Quiet a ∧ a.toList.getLast? = some ' ' ∨
    (∃ c ∈ [' ',',',':'], b.toList.head? = some c) → (P (a ++ b) ↔ P a ∧ P b)

theorem quiet_piecewise : Piecewise Quiet := by
  refine ⟨id,fun {a b} place => ?_⟩
  rw [Quiet,String.toList_append,isChain_append,← and_assoc]
  refine and_iff_left ?_
  rintro x last y head ⟨rfl,rfl⟩
  rcases place with ⟨_,blank⟩ | ⟨c,mark,first⟩
  · cases blank.symm.trans last
  · cases first.symm.trans head
    simp at mark

theorem sealed_piecewise : Piecewise Sealed := by
  refine ⟨strip_quiet,fun {a b} place => ?_⟩
  have apart : Apart a.toList b.toList := by
    rintro x last y head
    rcases place with ⟨_,blank⟩ | ⟨c,mark,first⟩
    · cases blank.symm.trans last
      simp
    · cases first.symm.trans head
      constructor <;> rintro ⟨rfl,rfl⟩ <;> simp at mark
  rw [Sealed,String.toList_append,strip_append true apart,Sealed,Sealed]
  cases stripped : strip true a.toList with
  | mk kept inside =>
    cases inside with
    | true => simp [Prod.ext_iff,and_assoc]
    | false =>
      rcases place with ⟨quiet,_⟩ | ⟨c,mark,first⟩
      · cases (strip_quiet quiet).symm.trans stripped
      · obtain ⟨rest,chars⟩ := head?_eq_some_iff.mp first
        rw [chars,strip_code (by rintro ⟨rfl,_⟩; simp at mark)]
        simp

end StagedLisp.Code
