import Mathlib.Data.List.Chain
import Mathlib.Data.Set.Insert
import StagedLisp.Primitive.Apply
import StagedLisp.Release.Block

/-! The variables of a fragment. A block declares variables; a use of a variable must come after its
declaration, in the same block or inside it. -/
namespace StagedLisp

namespace Code

/-- The text does not end the comment it stands in. -/
def Quiet (text : String) : Prop := text.toList.IsChain fun a b => ¬ (a = '*' ∧ b = '/')

instance (text : String) : Decidable (Quiet text) :=
  inferInstanceAs (Decidable (List.IsChain _ text.toList))

def isWordChar (c : Char) : Bool := c.isAlphanum || c == '_'

structure IsVariable (word : String) : Prop where
  nonempty : word ≠ ""
  chars : word.toList.all isWordChar
  start : startsWithDigit word = false
  keyword : word ∉ keywords
  type : word ≠ "Obj"

def IsRoutine (name : String) : Prop :=
  name ∈ supportNames ∨ ∃ record, name = "scan_" ++ identifier record

def Storage.Within (scope : Set String) : Storage → Prop
  | reused donor => donor ∈ scope
  | _ => True

def Drop.Within (scope : Set String) (d : Drop) : Prop :=
  d.target ∈ scope ∧ flagName d.target ∈ scope

def Note.IsQuiet (n : Note) : Prop := Quiet n.name ∧ ∀ donor ∈ n.reuses, Quiet donor

def Action.Within (scope : Set String) : Action → Prop
  | flag target => target ∈ scope ∧ IsVariable (flagName target)
  | freeze target => target ∈ scope
  | free _ target words | releaseComponent target words => target ∈ scope ∧ Quiet words
  | guardedFree _ target words => target ∈ scope ∧ flagName target ∈ scope ∧ Quiet words
  | remark words => Quiet words

def Action.scope (scope : Set String) : Action → Set String
  | flag target => insert (flagName target) scope
  | _ => scope

mutual

/-- The variables that the expression uses are among the given ones, or are declared in it before
they are used. -/
def Within (scope : Set String) : Code → Prop
  | text _ => False
  | var name => name ∈ scope
  | null => True
  | procedure params captured => ∀ name ∈ params ++ captured, Quiet name
  | int storage _ => storage.Within scope
  | pair donor head tail =>
    (∀ name ∈ donor, name ∈ scope) ∧ head.Within scope ∧ tail.Within scope
  | call1 helper operand => IsRoutine helper ∧ operand.Within scope
  | call2 helper left right => IsRoutine helper ∧ left.Within scope ∧ right.Within scope
  | conditional test onTrue onFalse =>
    test.Within scope ∧ onTrue.Within scope ∧ onFalse.Within scope
  | dropping drops value => (∀ d ∈ drops, d.Within scope) ∧ value.Within scope
  | assign place value => place.Within scope ∧ value.Within scope
  | block body => body.Within scope

/-- The same for a block from one of its statements on. A variable can be used after the statement
that declares it. -/
def Block.Within (scope : Set String) : Block → Prop
  | .declare name value note rest =>
    IsVariable name ∧ value.Within scope ∧ note.IsQuiet ∧ rest.Within (insert name scope)
  | .assign name value rest => name ∈ scope ∧ value.Within scope ∧ rest.Within scope
  | .act action rest => action.Within scope ∧ rest.Within (action.scope scope)
  | .finish value closing =>
    value.Within scope ∧ ∀ action ∈ closing, action.Within (insert resultName scope)

end

attribute [simp] Within Block.Within

section Mono

variable {scope scope' : Set String} (more : scope ⊆ scope')

include more

theorem Storage.Within.mono {storage : Storage} (within : storage.Within scope) : storage.Within scope' := by
  cases storage with
  | reused donor => exact more within
  | _ => trivial

theorem Action.Within.mono {action : Action} (within : action.Within scope) : action.Within scope' := by
  cases action with
  | flag | free | releaseComponent => exact ⟨more within.1,within.2⟩
  | freeze => exact more within
  | guardedFree => exact ⟨more within.1,more within.2.1,within.2.2⟩
  | remark => exact within

theorem Action.scope_mono (action : Action) : action.scope scope ⊆ action.scope scope' := by
  cases action with
  | flag => exact Set.insert_subset_insert more
  | _ => exact more

end Mono

mutual

theorem Within.mono {scope scope' : Set String} (more : scope ⊆ scope') :
    (c : Code) → c.Within scope → c.Within scope'
  | text _,within => by simp at within
  | var _,within => by
    rw [Within] at within ⊢
    exact more within
  | null,_ => by simp
  | procedure _ _,within => by
    rw [Within] at within ⊢
    exact within
  | int _ _,within => by
    rw [Within] at within ⊢
    exact within.mono more
  | pair _ head tail,within => by
    rw [Within] at within ⊢
    exact ⟨fun name given => more (within.1 name given),Within.mono more head within.2.1,
      Within.mono more tail within.2.2⟩
  | call1 _ operand,within => by
    rw [Within] at within ⊢
    exact ⟨within.1,Within.mono more operand within.2⟩
  | call2 _ left right,within => by
    rw [Within] at within ⊢
    exact ⟨within.1,Within.mono more left within.2.1,Within.mono more right within.2.2⟩
  | conditional test onTrue onFalse,within => by
    rw [Within] at within ⊢
    exact ⟨Within.mono more test within.1,Within.mono more onTrue within.2.1,Within.mono more onFalse within.2.2⟩
  | dropping _ value,within => by
    rw [Within] at within ⊢
    exact ⟨fun d member => ⟨more (within.1 d member).1,more (within.1 d member).2⟩, Within.mono more value within.2⟩
  | assign place value,within => by
    rw [Within] at within ⊢
    exact ⟨Within.mono more place within.1,Within.mono more value within.2⟩
  | block body,within => by
    rw [Within] at within ⊢
    exact Block.Within.mono more body within

theorem Block.Within.mono {scope scope' : Set String} (more : scope ⊆ scope') :
    (b : Block) → b.Within scope → b.Within scope'
  | .declare _ value _ rest,within => by
    rw [Block.Within] at within ⊢
    exact ⟨within.1,Within.mono more value within.2.1,within.2.2.1,
      Block.Within.mono (Set.insert_subset_insert more) rest within.2.2.2⟩
  | .assign _ value rest,within => by
    rw [Block.Within] at within ⊢
    exact ⟨more within.1,Within.mono more value within.2.1,Block.Within.mono more rest within.2.2⟩
  | .act action rest,within => by
    rw [Block.Within] at within ⊢
    exact ⟨within.1.mono more,Block.Within.mono (action.scope_mono more) rest within.2⟩
  | .finish value _,within => by
    rw [Block.Within] at within ⊢
    exact ⟨Within.mono more value within.1,
      fun action member => (within.2 action member).mono (Set.insert_subset_insert more)⟩

end

variable {scope : Set String}

theorem within_reusing {donor : String} {c d : Code} (taken : reusing? donor c = some d)
    (known : donor ∈ scope) (within : c.Within scope) : d.Within scope := by
  cases c with
  | int storage n =>
    cases storage with
    | heap =>
      cases taken
      simpa [Storage.Within] using known
    | _ => cases taken
  | pair other head tail =>
    cases other with
    | none =>
      cases taken
      rw [Within] at within ⊢
      exact ⟨fun name given => Option.some.inj given ▸ known,within.2⟩
    | some => cases taken
  | text => simp at within
  | _ => cases taken

theorem within_pooled {c : Code} (within : c.Within scope) : c.pooled.Within scope := by
  cases c with
  | int storage n =>
    cases storage with
    | heap => simp [pooled,Storage.Within]
    | _ => exact within
  | text => simp at within
  | _ => exact within

section Calls

variable {scope : Set String} {codes : List Code}

theorem within_foldl {helper : String} (routine : IsRoutine helper) {first : Code}
    (start : first.Within scope) (each : ∀ c ∈ codes, c.Within scope) :
    (codes.foldl (.call2 helper) first).Within scope := by
  induction codes generalizing first with
  | nil => exact start
  | cons c codes ih =>
    refine ih ?_ fun d member => each d (.tail _ member)
    rw [Within]
    exact ⟨routine,start,each c List.mem_cons_self⟩

theorem within_foldr (each : ∀ c ∈ codes, c.Within scope) : Within scope (codes.foldr (.pair none) .null) := by
  induction codes with
  | nil => simp
  | cons c codes ih =>
    rw [List.foldr_cons,Within]
    exact ⟨nofun,each c List.mem_cons_self,ih fun d member => each d (.tail _ member)⟩

end Calls

end Code

theorem Primitive.helper_routine (op : Primitive) : Code.IsRoutine op.helper :=
  .inl (by cases op <;> decide)

theorem Primitive.emit_within {scope : Set String} {op : Primitive} {codes : List Code} {c : Code}
    (each : ∀ c ∈ codes, c.Within scope) (emitted : op.emit codes = .ok c) : c.Within scope := by
  unfold emit at emitted
  split at emitted
  · cases emitted
  · next only _ =>
    have within := each only (by simp)
    cases emitted
    split
    · rw [Code.Within]
      exact ⟨op.helper_routine,by simp [Code.Storage.Within],within⟩
    · exact within
  · next first rest _ _ =>
    cases emitted
    exact Code.within_foldl op.helper_routine (each first List.mem_cons_self)
      fun c member => each c (.tail _ member)
  · next operand _ =>
    cases emitted
    rw [Code.Within]
    exact ⟨op.helper_routine,each operand (by simp)⟩
  · next left right _ =>
    have first := each left (by simp)
    have second := each right (by simp)
    cases emitted
    split
    · rw [Code.Within]
      exact ⟨nofun,first,second⟩
    · rw [Code.Within]
      exact ⟨op.helper_routine,first,second⟩
  · cases emitted
  · cases emitted
    exact Code.within_foldr each

end StagedLisp
