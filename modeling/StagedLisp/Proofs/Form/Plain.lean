import StagedLisp.Form.Provenance
import StagedLisp.Proofs.Form.View

/-! Plain expressions: integers, quoted data, names, primitives and conditionals with two
branches. -/
namespace StagedLisp

def Value.isDatum : Value → Bool
  | int _ | sym _ | nil => true
  | pair _ head tail => head.isDatum && tail.isDatum
  | _ => false

theorem Value.isDatum_not_code {v : Value} (datum : v.isDatum) : v.isCode = false := by
  cases v with
  | code => cases datum
  | _ => rfl

/-- Expressions made of integers, quoted data, the given names, calls of primitives and conditionals
with two branches. -/
inductive Plain (names : List String) : Value → Prop where
  | int (n : Int64) : Plain names (.int n)
  | nil : Plain names .nil
  | name {x} (known : x ∈ names) : Plain names (.sym x)
  | quote {e datum} (items : e.formItems? = some [.sym "quote",datum])
      (data : datum.isDatum) : Plain names e
  | call {e args} (op : Primitive) (items : e.formItems? = some (.sym op.name :: args))
      (parts : ∀ a ∈ args, Plain names a) : Plain names e
  | choice {e test onTrue onFalse}
      (items : e.formItems? = some [.sym "if",test,onTrue,onFalse]) (tests : Plain names test)
      (first : Plain names onTrue) (second : Plain names onFalse) : Plain names e

def LetForm.IsPlain (form : LetForm) : Prop :=
  ∀ (i : Nat) b, form.bindings[i]? = some b → Plain (form.names.take i) b.init

theorem LetForm.IsPlain.init {form : LetForm} (plain : form.IsPlain) :
    ∀ b ∈ form.bindings, ∃ names, Plain names b.init := by
  intro b member
  obtain ⟨i,bound,rfl⟩ := List.getElem_of_mem member
  exact ⟨_,plain i _ (List.getElem?_eq_getElem bound)⟩

variable {projected : Bool}

theorem exposed?_form {e : Value} {keyword : String} {args : List Value} {x : String}
    (items : e.formItems? = some (.sym keyword :: args))
    (exposed : exposed? e = some (x,projected)) :
    (keyword = "car" ∨ keyword = "cdr" ∨ keyword = "lift") ∧
      ∃ operand ∈ args, ∃ projected, exposed? operand = some (x,projected) := by
  obtain ⟨cell,tail,rfl,rest⟩ := formItems_cons items
  cases tail with
  | pair cell operand tail =>
    have first : operand ∈ args := by
      obtain ⟨others,_,rfl⟩ := Option.map_eq_some_iff.mp rest
      exact List.mem_cons_self
    rw [exposed?] at exposed
    split at exposed
    · next projecting =>
      obtain ⟨⟨_,inner⟩,found,same⟩ := Option.map_eq_some_iff.mp exposed
      cases same
      refine ⟨?_,operand,first,inner,found⟩
      rcases Bool.or_eq_true_iff.mp projecting with car | cdr
      · exact .inl (beq_iff_eq.mp car)
      · exact .inr (.inl (beq_iff_eq.mp cdr))
    · split at exposed
      · next lifting =>
        exact ⟨.inr (.inr (beq_iff_eq.mp lifting)),operand,first,projected,exposed⟩
      · cases exposed
  | _ => simp [exposed?] at exposed

theorem Plain.exposed {names : List String} {e : Value} (plain : Plain names e) {x : String}
    (exposed : exposed? e = some (x,projected)) : x ∈ names := by
  induction plain generalizing projected with
  | int | nil => cases exposed
  | name known => cases exposed; exact known
  | quote items _ | choice items => exact absurd (exposed?_form items exposed).1 (by decide)
  | call op items parts ih =>
    obtain ⟨_,operand,member,_,found⟩ := exposed?_form items exposed
    exact ih operand member found

end StagedLisp
