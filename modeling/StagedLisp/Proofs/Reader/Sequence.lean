import Mathlib.Data.List.Forall2
import StagedLisp.Proofs.Reader.RoundTrip

/-! Reading one datum and reading all of a text agree. A text is read as data exactly if it is cut
into tokens that derive them one after the other, and a line feed between two texts leaves the
tokens of both as they are. -/
namespace StagedLisp

open List Reader

variable {stop : Nat} {lexemes rest : List Lexeme} {tokens more : List Token} {datum : Datum}
  {data : List Datum} {stack : List Frame}

theorem readEach_of_readFirst (read : readFirst stop lexemes stack = .ok (datum,rest)) :
    readEach stop lexemes stack = (datum :: ·) <$> readEach stop rest [] := by
  induction lexemes generalizing stack with
  | nil => cases read
  | cons lexeme lexemes ih =>
    rw [readFirst_cons] at read
    rw [readEach]
    cases stepped : step stack lexeme with
    | error => simp [stepped,resume] at read
    | ok progress =>
      rw [stepped] at read
      cases progress with
      | pending stack => exact ih read
      | done =>
        cases read
        rfl

theorem Reader.DerivesEach.readsEach {tokens : List Token} {data : List Datum} :
    DerivesEach tokens data → ∀ lexemes : List Lexeme, lexemes.map Lexeme.token = tokens →
      readEach stop lexemes [] = .ok data
  | .nil,lexemes,cut => by
    rw [map_eq_nil_iff.mp cut]
    rfl
  | .cons first others,lexemes,cut => by
    obtain ⟨front,back,rfl,cutFront,cutBack⟩ := map_eq_append_iff.mp cut
    obtain ⟨place,read⟩ := first.reads front cutFront back []
    rw [readEach_of_readFirst read,others.readsEach back cutBack]
    rfl

/-- What is open when the reading starts belongs to the first datum, so the tokens that led there
come first. -/
theorem readEach_derives {before : List Token} (opened : Opened stack before)
    (read : readEach stop lexemes stack = .ok data) :
    DerivesEach (before ++ lexemes.map Lexeme.token) data := by
  induction lexemes generalizing stack before data with
  | nil =>
    cases opened with
    | nil =>
      cases read
      exact .nil
    | _ => cases read
  | cons lexeme lexemes ih =>
    rw [readEach] at read
    cases stepped : step stack lexeme with
    | error => simp [stepped] at read
    | ok progress =>
      have justified := step_justified opened stepped
      rw [map_cons,append_cons]
      rw [stepped] at read
      cases progress with
      | pending stack => exact ih justified read
      | done datum =>
        dsimp only at read
        cases found : readEach stop lexemes [] with
        | error =>
          rw [found] at read
          cases read
        | ok others =>
          rw [found] at read
          cases read
          exact .cons justified (ih .nil found)

theorem readAll_iff_derives {source : String} :
    readAll source = .ok data ↔ ∃ tokens, Cut source.toList tokens ∧ DerivesEach tokens data := by
  unfold readAll
  constructor
  · intro read
    cases found : readEach source.utf8ByteSize (lexemes source) [] with
    | error => simp [found,Except.mapError] at read
    | ok others =>
      rw [found] at read
      cases read
      have derives := readEach_derives .nil found
      exact ⟨_,cut_scan fun c => derives.no_stray c,derives⟩
  · rintro ⟨tokens,cut,derives⟩
    rw [derives.readsEach (lexemes source) (cut.scan 0)]
    rfl

theorem Reader.DerivesEach.singleton : DerivesEach tokens [datum] ↔ Derives tokens datum := by
  constructor
  · rintro (_ | ⟨first,_ | _⟩)
    simpa using first
  · intro derives
    simpa using DerivesEach.cons derives .nil

/-- A comment or an atom at the end of the first text stops at the line feed. -/
theorem Reader.Cut.line {cs rest : List Char} (cut : Cut cs tokens) (after : Cut rest more) :
    Cut (cs ++ '\n' :: rest) (tokens ++ more) := by
  induction cut with
  | done => exact .space (by decide) after
  | space blank _ ih => exact .space blank ih
  | @comment line others _ noReturn noFeed ends _ ih =>
    have ends : LineEnd (others ++ '\n' :: rest) := by
      rcases ends with rfl | ⟨others,rfl⟩ | ⟨others,rfl⟩
      · exact .inr (.inl ⟨_,rfl⟩)
      · exact .inr (.inl ⟨_,rfl⟩)
      · exact .inr (.inr ⟨_,rfl⟩)
    rw [cons_append,append_assoc]
    exact .comment noReturn noFeed ends ih
  | openParen _ ih => exact .openParen ih
  | closeParen _ ih => exact .closeParen ih
  | quoteMark _ ih => exact .quoteMark ih
  | @atom word others _ nonempty symbols stops _ ih =>
    have stops : Ends (others ++ '\n' :: rest) := by
      cases others with
      | nil => exact ends_delimiter (by decide)
      | cons => exact stops
    rw [append_assoc]
    exact .atom nonempty symbols stops ih

theorem cut_joined {texts : List String} (each : Forall₂ (fun text datum => read text = .ok datum) texts data) :
    ∃ tokens, Cut ("\n".intercalate texts).toList tokens ∧ DerivesEach tokens data := by
  induction each with
  | nil => exact ⟨[],.done,.nil⟩
  | @cons text datum texts data found others ih =>
    obtain ⟨first,cut,derives⟩ := derives_of_read found
    cases others with
    | nil =>
      rw [String.intercalate_singleton]
      exact ⟨first,cut,DerivesEach.singleton.mpr derives⟩
    | cons =>
      obtain ⟨tokens,cuts,each⟩ := ih
      refine ⟨first ++ tokens,?_,.cons derives each⟩
      rw [String.intercalate_cons_cons,String.toList_append,String.toList_append,append_assoc]
      exact cut.line cuts

/-- Reading all of a text gives one datum exactly if reading one gives that datum, and texts that
are read as one datum each are read together, a line feed between them, as all of these. -/
theorem readAll_agrees :
    (∀ source datum, read source = .ok datum ↔ readAll source = .ok [datum]) ∧
    ∀ texts data, Forall₂ (fun text datum => read text = .ok datum) texts data →
      readAll ("\n".intercalate texts) = .ok data := by
  constructor
  · intro source datum
    simp only [readAll_iff_derives,DerivesEach.singleton]
    exact ⟨derives_of_read,fun ⟨_,cut,derives⟩ => read_of_derives cut derives⟩
  · intro texts data each
    exact readAll_iff_derives.mpr (cut_joined each)

/-- The first text ends in a comment, the second in a carriage return. -/
theorem readAll_agrees_lines :
    let texts := ["'x ;(","-7\r"]
    let data := [quotationOf (.sym "x"),.int (-7)]
    Forall₂ (fun text datum => read text = .ok datum) texts data ∧
      readAll ("\n".intercalate texts) = .ok data := by
  intro texts data
  have each : Forall₂ (fun text datum => read text = .ok datum) texts data :=
    .cons (by decide +kernel) (.cons (by decide +kernel) .nil)
  exact ⟨each,readAll_agrees.2 texts data each⟩

end StagedLisp
