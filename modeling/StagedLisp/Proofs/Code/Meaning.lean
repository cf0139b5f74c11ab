import StagedLisp.Proofs.Primitive.Staging
import StagedLisp.Proofs.Release.Donation

/-! The object that a fragment of the generated program computes. A block is a scope of its own: what
it declares hides what is declared around it, a name is in scope in its own initialiser already, and
cannot be declared twice. Releases do nothing, and storage does not matter. -/
namespace StagedLisp

open Support (Contents)

namespace Code

inductive Variable where
  /-- Declared, but without a value as yet. -/
  | unset
  | object (contents : Contents)
  /-- Says whether a variable was released on a branch. -/
  | flag
deriving DecidableEq, Repr

def Variable.object? : Variable → Option Contents
  | object contents => some contents
  | _ => none

abbrev Scope := List (String × Variable)

/-- Words that identifiers are not kept apart from, and that cannot be declared. -/
def otherWords : List String := [
  "NULL","asm","typeof","_Alignas","_Alignof","_Atomic","_Bool","_Complex","_Generic","_Imaginary",
  "_Noreturn","_Static_assert","_Thread_local"]

def canDeclare (own : Scope) (name : String) : Bool :=
  (own.lookup name).isNone && !otherWords.contains name

mutual

/-- The object of an expression, where it has one. Assignments and expressions given as text are
left undefined. -/
def value? (scope : Scope) : Code → Option Contents
  | text _ => none
  | var name => (scope.lookup name).bind Variable.object?
  | null => some .null
  | procedure _ _ => some .null
  | int _ n => some (.int n.toInt)
  | pair _ head tail =>
    (head.value? scope).bind fun a => (tail.value? scope).map fun b => .pair a b
  | call1 helper operand => (operand.value? scope).bind fun o => Support.call? helper [o]
  | call2 helper left right =>
    (left.value? scope).bind fun a =>
      (right.value? scope).bind fun b => Support.call? helper [a,b]
  | conditional test onTrue onFalse =>
    (test.value? scope).bind fun o =>
      (Support.callScalar "is_true" o).bind fun n =>
        if n = 0 then onFalse.value? scope else onTrue.value? scope
  | dropping drops value =>
    if drops.all fun d => scope.lookup (flagName d.target) = some .flag then value.value? scope
    else none
  | assign _ _ => none
  | block body => body.value? scope []

/-- The object of a block from a statement on, where `own` is declared in the block so far. -/
def Block.value? (outer own : Scope) : Block → Option Contents
  | .declare name value _ rest =>
    if canDeclare own name then
      (value.value? ((name,.unset) :: own ++ outer)).bind fun o =>
        rest.value? outer ((name,.object o) :: own)
    else none
  | .assign name value rest =>
    ((own.lookup name).bind Variable.object?).bind fun _ =>
      (value.value? (own ++ outer)).bind fun o => rest.value? outer ((name,.object o) :: own)
  | .act action rest =>
    match action with
    | .flag target =>
      if canDeclare own (flagName target) then
        rest.value? outer ((flagName target,.flag) :: own)
      else none
    | _ => rest.value? outer own
  | .finish value _ =>
    if canDeclare own resultName then value.value? ((resultName,.unset) :: own ++ outer) else none

end

attribute [simp] value? Block.value?

theorem value?_reusing {donor : String} {c d : Code} (taken : reusing? donor c = some d)
    (scope : Scope) : d.value? scope = c.value? scope := by
  cases c with
  | int storage n =>
    cases storage with
    | heap =>
      cases taken
      simp
    | _ => cases taken
  | pair other head tail =>
    cases other with
    | none =>
      cases taken
      simp
    | some => cases taken
  | text source =>
    simp only [reusing?] at taken
    split at taken
    · cases taken
      simp
    · split at taken <;> cases taken
      simp
  | _ => cases taken

theorem value?_pooled (c : Code) (scope : Scope) : c.pooled.value? scope = c.value? scope := by
  cases c with
  | int storage n => cases storage <;> simp [pooled]
  | text source =>
    simp only [pooled]
    split <;> simp
  | _ => rfl

variable {o : Contents} {scope : Scope}

theorem value?_object {c : Code} (built : c.object? = some o) (scope : Scope) : c.value? scope = some o := by
  fun_induction object? c generalizing o with
  | case1 => simpa using built
  | case2 n => simpa using built
  | case3 head tail ihHead ihTail =>
    obtain ⟨a,first,rest⟩ := Option.bind_eq_some_iff.mp built
    obtain ⟨b,second,rfl⟩ := Option.map_eq_some_iff.mp rest
    simp [ihHead first,ihTail second]
  | case4 routine operand ih =>
    obtain ⟨a,first,called⟩ := Option.bind_eq_some_iff.mp built
    simp [ih first,called]
  | case5 routine left right ihLeft ihRight =>
    obtain ⟨a,first,rest⟩ := Option.bind_eq_some_iff.mp built
    obtain ⟨b,second,called⟩ := Option.bind_eq_some_iff.mp rest
    simp [ihLeft first,ihRight second,called]
  | case6 => cases built

theorem value?_conditional {test : Code} (tested : test.value? scope = some o) (onTrue onFalse : Code) :
    (conditional test onTrue onFalse).value? scope =
      if o.isTrue then onTrue.value? scope else onFalse.value? scope := by
  simp only [value?,tested,Option.bind_some,Support.callScalar_is_true]
  cases o.isTrue <;> rfl

theorem value?_dropping {drops : List Drop}
    (flags : ∀ d ∈ drops, scope.lookup (flagName d.target) = some .flag) (value : Code) :
    (dropping drops value).value? scope = value.value? scope := by
  rw [value?,if_pos]
  simpa using flags

def SameValue (scope scope' : Scope) (c d : Code) : Prop := c.value? scope = d.value? scope'

section Calls

variable {scope scope' : Scope} {helper : String} {a b c d : Code} {cs ds : List Code}

theorem SameValue.call1 (same : SameValue scope scope' a b) :
    SameValue scope scope' (.call1 helper a) (.call1 helper b) := by
  unfold SameValue at same ⊢
  rw [value?,value?,same]

theorem SameValue.call2 (left : SameValue scope scope' a b) (right : SameValue scope scope' c d) :
    SameValue scope scope' (.call2 helper a c) (.call2 helper b d) := by
  unfold SameValue at left right ⊢
  rw [value?,value?,left,right]

theorem SameValue.pair (left : SameValue scope scope' a b) (right : SameValue scope scope' c d) :
    SameValue scope scope' (.pair none a c) (.pair none b d) := by
  unfold SameValue at left right ⊢
  rw [value?,value?,left,right]

theorem SameValue.foldl (each : List.Forall₂ (SameValue scope scope') cs ds) (first : SameValue scope scope' a b) :
    SameValue scope scope' (cs.foldl (.call2 helper) a) (ds.foldl (.call2 helper) b) := by
  induction each generalizing a b with
  | nil => exact first
  | cons same _ ih => exact ih (first.call2 same)

theorem SameValue.foldr (each : List.Forall₂ (SameValue scope scope') cs ds) :
    SameValue scope scope' (cs.foldr (.pair none) .null) (ds.foldr (.pair none) .null) := by
  induction each with
  | nil => simp [SameValue]
  | cons same _ ih => exact same.pair ih

end Calls

end Code

theorem Primitive.emit_sameValue {scope scope' : Code.Scope} {op : Primitive} {cs ds : List Code}
    {c d : Code} (each : List.Forall₂ (Code.SameValue scope scope') cs ds)
    (left : op.emit cs = .ok c) (right : op.emit ds = .ok d) : Code.SameValue scope scope' c d := by
  unfold emit at left right
  cases emission : op.emission with
  | fold =>
    rw [emission] at left right
    rcases each with _ | ⟨first,_ | ⟨second,each⟩⟩
    · cases left
    · cases left
      cases right
      split
      · exact .call2 rfl first
      · exact first
    · cases left
      cases right
      exact .foldl (.cons second each) first
  | call =>
    rw [emission] at left right
    rcases each with _ | ⟨first,_ | ⟨second,_ | _⟩⟩
    · cases left
    · cases left
      cases right
      exact first.call1
    · cases left
      cases right
      split
      · exact first.pair second
      · exact first.call2 second
    · cases left
  | listBuild =>
    rw [emission] at left right
    cases left
    cases right
    exact .foldr each

end StagedLisp
