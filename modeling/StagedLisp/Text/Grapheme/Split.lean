import StagedLisp.Text.Grapheme.Class

/-! Texts cut into the clusters that a reader takes for one character each. Whether a boundary
stands before a character depends on its class and on a few facts about the text before it. -/
namespace StagedLisp.Text

/-- How far the text so far has come towards a conjunct of consonants. -/
inductive Conjunct where
  | none
  | started
  | linked
deriving DecidableEq, Repr

/-- What the text before a boundary tells about it. -/
structure GraphemeContext where
  last : GraphemeClass
  conjunct : Conjunct
  /-- The text ends with a pictograph, marks that extend it, and perhaps a joiner. -/
  pictured : Bool
  /-- The text ends with an odd number of regional indicators. -/
  unpaired : Bool
deriving DecidableEq, Repr

namespace GraphemeContext

def start (first : GraphemeClass) : GraphemeContext where
  last := first
  conjunct := if first = .consonant then .started else .none
  pictured := first = .pictograph
  unpaired := first = .regional

def nextConjunct (before : Conjunct) : GraphemeClass → Conjunct
  | .consonant => .started
  | .linker => if before = .none then .none else .linked
  | .extend | .joiner => before
  | _ => .none

def nextPictured (x : GraphemeContext) : GraphemeClass → Bool
  | .pictograph => true
  | .extend | .linker | .nonJoiner | .joiner => x.pictured && x.last != .joiner
  | _ => false

def next (x : GraphemeContext) (c : GraphemeClass) : GraphemeContext where
  last := c
  conjunct := nextConjunct x.conjunct c
  pictured := x.nextPictured c
  unpaired := c = .regional && !x.unpaired

def joins (x : GraphemeContext) (c : GraphemeClass) : Bool :=
  match x.last, c with
  | .carriageReturn, .lineFeed => true
  | .carriageReturn, _ | .lineFeed, _ | .control, _ => false
  | _, .carriageReturn | _, .lineFeed | _, .control => false
  | _, .extend | _, .linker | _, .nonJoiner | _, .joiner | _, .spacing => true
  | .leading, _ => true
  | .initial, .initial | .initial, .vowel | .initial, .openSyllable
  | .initial, .closedSyllable => true
  | .openSyllable, .vowel | .openSyllable, .final | .vowel, .vowel | .vowel, .final => true
  | .closedSyllable, .final | .final, .final => true
  | _, .consonant => x.conjunct = .linked
  | .joiner, .pictograph => x.pictured
  | .regional, .regional => x.unpaired
  | _, _ => false

end GraphemeContext

def graphemesFrom (x : GraphemeContext) (begun : List Char) : List Char → List (List Char)
  | [] => [begun.reverse]
  | c :: rest =>
    let cls := GraphemeClass.ofChar c
    if x.joins cls then graphemesFrom (x.next cls) (c :: begun) rest
    else begun.reverse :: graphemesFrom (x.next cls) [c] rest

def graphemes : List Char → List (List Char)
  | [] => []
  | c :: rest => graphemesFrom (.start (.ofChar c)) [c] rest

theorem flatten_graphemesFrom (x : GraphemeContext) (begun cs : List Char) :
    (graphemesFrom x begun cs).flatten = begun.reverse ++ cs := by
  induction cs generalizing x begun with
  | nil => simp [graphemesFrom]
  | cons c rest ih =>
    simp only [graphemesFrom]
    split <;> simp [ih]

theorem flatten_graphemes (cs : List Char) : (graphemes cs).flatten = cs := by
  cases cs with
  | nil => rfl
  | cons c rest => simp [graphemes,flatten_graphemesFrom]

end StagedLisp.Text
