import StagedLisp.Proofs.Code.Meaning
import StagedLisp.Proofs.Eval.Forms
import StagedLisp.Proofs.Form.Lookup

/-! Expressions without procedures and assignments, which can be evaluated now or later, and the let
forms whose names stay apart when they are compiled. -/
namespace StagedLisp

open Code

/-- Evaluating the expression may give a fragment: something is lifted in it, or it looks up one of
the names that stand for variables of the generated program. -/
def Stages (refs : String → Prop) (e : Value) : Prop :=
  ¬ Avoids ["lift"] e ∨ ∃ x, refs x ∧ LooksUp e x

def rerefer (refs : String → Prop) (own : List String) (staged : Prop) (x : String) : Prop :=
  if x ∈ own then staged else refs x

def LetForm.CompiledBefore (form : LetForm) (refs : String → Prop) (count : Nat) : Prop :=
  ∃ i < count, ∃ b, form.bindings[i]? = some b ∧ Stages (fun x => x ∉ form.names.take i ∧ refs x) b.init

/-- Expressions made of integers, quoted data, the given names, `lift`, conditionals with two
branches, primitives other than `eq?`, and let forms that are admitted where they stand. Some of the
names stand for variables of the generated program. -/
inductive Stageable (admits : (String → Prop) → List String → LetForm → Prop) :
    (String → Prop) → List String → Value → Prop where
  | int {refs names} (n : Int64) : Stageable admits refs names (.int n)
  | nil {refs names} : Stageable admits refs names .nil
  | name {refs names x} (known : x ∈ names) : Stageable admits refs names (.sym x)
  | quote {refs names e datum}
      (items : IsForm "quote" [datum] e) (data : datum.isData) : Stageable admits refs names e
  | lift {refs names e operand}
      (items : IsForm "lift" [operand] e) (part : Stageable admits refs names operand) :
      Stageable admits refs names e
  | choice {refs names e test onTrue onFalse}
      (items : IsForm "if" [test,onTrue,onFalse] e) (tests : Stageable admits refs names test)
      (first : Stageable admits refs names onTrue) (second : Stageable admits refs names onFalse) :
      Stageable admits refs names e
  | call {refs names e args} (op : Primitive) (other : op ≠ .eq) (items : IsForm op.name args e)
      (parts : ∀ a ∈ args, Stageable admits refs names a) : Stageable admits refs names e
  | block {refs names e form} (read : LetForm.ofValue e = .ok form) (plain : form.kind = .plain)
      (admitted : admits refs names form)
      (inits : ∀ (i : Nat) b, form.bindings[i]? = some b →
        Stageable admits (rerefer refs (form.names.take i) (form.CompiledBefore refs i))
          (form.names.take i ++ names) b.init)
      (body : Stageable admits
        (rerefer refs form.names (form.CompiledBefore refs form.bodyIndex)) (form.names ++ names)
        form.body) : Stageable admits refs names e

/-- The identifiers of a form's names, and the flags of these, can be declared together, and none of
them hides a variable from outside where that variable is referred to. The name that a statement
binds is in scope in it already. -/
structure LetForm.Hygienic (refs : String → Prop) (names : List String) (form : LetForm) :
    Prop where
  distinct : (form.names.map identifier).Nodup
  flags : ∀ x ∈ form.names, ∀ y ∈ form.names, identifier x ≠ flagName (identifier y)
  words : ∀ x ∈ form.names, identifier x ∉ otherWords
  apart : ∀ i ≤ form.bodyIndex, ∀ y ∈ names, refs y → y ∉ form.names.take i → LooksUp (form.statement i) y →
      (∀ x ∈ form.names.take (i + 1), identifier y ≠ identifier x) ∧
      ∀ x ∈ form.names.take i, identifier y ≠ flagName (identifier x)

/-- If the form is compiled, its identifiers do not get in the way. -/
def LetForm.KeepsApart (refs : String → Prop) (names : List String) (form : LetForm) : Prop :=
  form.CompiledBefore refs form.bodyIndex → form.Hygienic refs names

variable {refs refs' : String → Prop} {e : Value} {form : LetForm} {names : List String} {staged : Prop}
  {count i : Nat}

theorem Stages.lift {parts : List Value} (items : IsForm "lift" parts e) : Stages refs e :=
  .inl fun avoids => avoids e "lift" .self items.head List.mem_cons_self

theorem Stages.part {part : Value} {view : View}
    (shown : View.of? e = some view) (listed : (names,part) ∈ view.parts)
    (scopes : (names,part) ∈ view.scopes) (stages : Stages (fun x => x ∉ names ∧ refs x) part) :
    Stages refs e := by
  rcases stages with lifts | ⟨x,⟨outer,refers⟩,looks⟩
  · exact .inl fun avoids => lifts (avoids.part shown listed)
  · exact .inr ⟨x,refers,.part shown scopes outer looks⟩

section

variable (more : ∀ x, refs x → refs' x)

include more

theorem rerefer_mono {own : List String} {staged' : Prop} {x : String}
    (stays : staged → staged') (refers : rerefer refs own staged x) :
    rerefer refs' own staged' x := by
  unfold rerefer at refers ⊢
  split at refers
  · next inner =>
    rw [if_pos inner]
    exact stays refers
  · next outer =>
    rw [if_neg outer]
    exact more x refers

theorem Stages.mono (stages : Stages refs e) : Stages refs' e := by
  rcases stages with lifts | ⟨x,refers,looks⟩
  · exact .inl lifts
  · exact .inr ⟨x,more x refers,looks⟩

theorem LetForm.CompiledBefore.mono {count' : Nat} (fewer : count ≤ count')
    (compiled : form.CompiledBefore refs count) : form.CompiledBefore refs' count' := by
  obtain ⟨i,before,b,found,stages⟩ := compiled
  exact ⟨i,by omega,b,found,stages.mono fun x both => ⟨both.1,more x both.2⟩⟩

theorem LetForm.Hygienic.anti (hygienic : form.Hygienic refs' names) : form.Hygienic refs names where
  distinct := hygienic.distinct
  flags := hygienic.flags
  words := hygienic.words
  apart i inside y member refers := hygienic.apart i inside y member (more y refers)

end

/-- The first initialiser that may give a fragment sees none of the form's own names as
variables. -/
theorem LetForm.CompiledBefore.step {b : Binding}
    (found : form.bindings[i]? = some b) (before : staged → form.CompiledBefore refs i)
    (stages : Stages (rerefer refs (form.names.take i) staged) b.init) :
    form.CompiledBefore refs (i + 1) := by
  by_cases on : staged
  · exact (before on).mono (fun _ => id) i.le_succ
  · refine ⟨i,Nat.lt_succ_self i,b,found,stages.mono fun x refers => ?_⟩
    unfold rerefer at refers
    split at refers
    · exact absurd refers on
    · next outer => exact ⟨outer,refers⟩

theorem LetForm.stages_statement {part : Value} (plain : form.kind = .plain)
    (shown : View.of? e = some (.binding form)) (found : form.statements[i]? = some part)
    (stages : Stages (fun x => x ∉ form.names.take i ∧ refs x) part) : Stages refs e := by
  rw [← visibleIn_plain plain] at stages
  have listed : (form.visibleIn i,part) ∈ (View.binding form).parts :=
    List.mem_map.mpr ⟨(part,i),List.mem_zipIdx_iff_getElem?.mpr found,rfl⟩
  exact .part shown listed listed stages

theorem LetForm.CompiledBefore.stages (plain : form.kind = .plain)
    (shown : View.of? e = some (.binding form)) (compiled : form.CompiledBefore refs count) :
    Stages refs e := by
  obtain ⟨i,_,b,found,stages⟩ := compiled
  exact LetForm.stages_statement plain shown (LetForm.init_at found) stages

end StagedLisp
