import StagedLisp.Proofs.Form.Names

/-! The names that evaluation may look up around an expression: its free variables and, since a
procedure may be given fewer operands than it has parameters, the parameters of its procedures. -/
namespace StagedLisp

open List View

/-- The parts of a form in which names are looked up, each with the names certainly bound around
it. A procedure that is given too few operands looks up the other parameters outside. -/
def View.scopes : View → List (List String × Value)
  | lambda _ body => [([],body)]
  | view => view.parts

/-- Evaluating the expression may look up the name in the environment it is evaluated in. -/
inductive LooksUp : Value → String → Prop where
  | name (x : String) : LooksUp (.sym x) x
  | part {e part view names x} :
      of? e = some view → (names,part) ∈ view.scopes → x ∉ names → LooksUp part x → LooksUp e x

def LetForm.LooksOut (form : LetForm) (x : String) : Prop :=
  ∃ part ∈ (View.binding form).parts, x ∉ part.1 ∧ LooksUp part.2 x

variable {x : String} {depth : Nat}

variable {e : Value} {keywords names bound : List String} {view : View} {budget : Nat}

theorem LetForm.LooksOut.lookup {form : LetForm} (out : form.LooksOut x)
    (shown : of? e = some (.binding form)) : LooksUp e x := by
  obtain ⟨_,listed,unbound,looks⟩ := out
  exact .part shown listed unbound looks

theorem LetForm.looks_statement {form : LetForm} {index : Nat} {part : Value}
    (found : form.statements[index]? = some part) (looks : LooksUp part x) :
    x ∈ form.visibleIn index ∨ form.LooksOut x := by
  by_cases seen : x ∈ form.visibleIn index
  · exact .inl seen
  · exact .inr ⟨(form.visibleIn index,part),
      mem_map.mpr ⟨(part,index),mem_zipIdx_iff_getElem?.mpr found,rfl⟩,seen,looks⟩

inductive HasParameter : Value → String → Prop where
  | here {e body params x} : of? e = some (.lambda params body) → x ∈ params → HasParameter e x
  | part {e part view names x} :
      of? e = some view → (names,part) ∈ view.parts → HasParameter part x → HasParameter e x

def NestedWithin : Nat → Value → Prop
  | 0,e => ∀ view, of? e = some view → view.parts = []
  | depth + 1,e => ∀ view, of? e = some view → ∀ part ∈ view.parts, NestedWithin depth part.2

instance NestedWithin.decidable : (depth : Nat) → (e : Value) → Decidable (NestedWithin depth e)
  | 0,e => decidable_of_iff (∀ view ∈ of? e, view.parts.isEmpty = true) (by
      simp only [NestedWithin,List.isEmpty_iff]
      rfl)
  | depth + 1,e =>
    have := NestedWithin.decidable depth
    decidable_of_iff (∀ view ∈ of? e, ∀ part ∈ view.parts, NestedWithin depth part.2) Iff.rfl

theorem nestedWithin_iff_parts : NestedWithin depth e ↔ ∀ view, of? e = some view → ∀ part ∈ view.parts,
      ∃ less, depth = less + 1 ∧ NestedWithin less part.2 := by
  cases depth <;> simp [NestedWithin,eq_nil_iff_forall_not_mem]

inductive PartOf (e : Value) : Value → Prop where
  | self : PartOf e e
  | part {whole part view names} :
      of? whole = some view → (names,part) ∈ view.parts → PartOf e part → PartOf e whole

def Avoids (keywords : List String) (e : Value) : Prop :=
  ∀ part keyword, PartOf part e → part.headSymbol? = some keyword → keyword ∉ keywords

theorem Avoids.part {part : Value} (avoids : Avoids keywords e) (shown : of? e = some view)
    (listed : (names,part) ∈ view.parts) : Avoids keywords part :=
  fun inner keyword inside => avoids inner keyword (.part shown listed inside)

theorem Avoids.form (shown : of? e = some view)
    (head : ∀ keyword, e.headSymbol? = some keyword → keyword ∉ keywords)
    (parts : ∀ part ∈ view.parts, Avoids keywords part.2) : Avoids keywords e := by
  intro inner keyword inside named
  cases inside with
  | self => exact head keyword named
  | part found listed inside =>
    cases shown.symm.trans found
    exact parts _ listed inner keyword inside named

theorem Avoids.atom (atom : e.head? = none) : Avoids keywords e := by
  intro inner keyword inside named
  cases e with
  | pair => cases atom
  | _ =>
    cases inside with
    | self => cases named
    | part found => cases found

theorem NestedWithin.form (shown : of? e = some view)
    (parts : ∀ part ∈ view.parts, NestedWithin depth part.2) : NestedWithin (depth + 1) e := by
  intro other found
  cases shown.symm.trans found
  exact parts

theorem NestedWithin.atom (atom : e.head? = none) : NestedWithin depth e := by
  cases e with
  | pair => cases atom
  | _ => cases depth <;> exact fun _ shown => nomatch shown

theorem NestedWithin.mem_freeNames {y : String} (nested : NestedWithin depth e)
    (member : y ∈ freeNames budget bound [] e) : y ∈ freeNames (depth + 1) bound [] e := by
  induction budget generalizing depth bound e with
  | zero => simp [freeNames] at member
  | succ budget ih =>
    rcases mem_freeNames_succ.mp member with ⟨rfl,free⟩ | ⟨view,shown,part,listed,inside⟩
    · exact mem_freeNames_symbol.mpr ⟨rfl,free⟩
    · cases depth with
      | zero =>
        rw [nested view shown] at listed
        cases listed
      | succ depth =>
        exact (mem_freeNames_form shown).mpr ⟨part,listed,ih (nested view shown part listed) inside⟩

theorem mem_freeNames_bound {y : String} :
    y ∈ freeNames budget bound [] e ↔ y ∈ freeNames budget [] [] e ∧ y ∉ bound := by
  induction budget generalizing bound e with
  | zero => simp [freeNames]
  | succ budget ih =>
    rw [mem_freeNames_succ,mem_freeNames_succ,or_and_right]
    refine or_congr (by simp) ⟨?_,?_⟩
    · rintro ⟨view,shown,part,listed,member⟩
      obtain ⟨free,unbound⟩ := ih.mp member
      rw [mem_append,not_or] at unbound
      exact ⟨⟨view,shown,part,listed,ih.mpr ⟨free,unbound.2⟩⟩,unbound.1⟩
    · rintro ⟨⟨view,shown,part,listed,member⟩,unbound⟩
      obtain ⟨free,hidden⟩ := ih.mp member
      refine ⟨view,shown,part,listed,ih.mpr ⟨free,?_⟩⟩
      rw [mem_append,not_or]
      exact ⟨unbound,hidden⟩

theorem View.mem_scopes {part : Value} (listed : (names,part) ∈ view.scopes) :
    (names,part) ∈ view.parts ∨ ∃ params, view = .lambda params part := by
  cases view with
  | lambda params body =>
    cases mem_singleton.mp listed
    exact .inr ⟨params,rfl⟩
  | _ => exact .inl listed

theorem LooksUp.free_or_param (looks : LooksUp e x) (nested : NestedWithin depth e) :
    x ∈ freeNames (depth + 1) [] [] e ∨ HasParameter e x := by
  induction looks generalizing depth with
  | name x => exact .inl (mem_freeNames_symbol.mpr ⟨rfl,not_mem_nil⟩)
  | @part e part view names x shown listed unbound _ ih =>
    -- A part that is listed with other names than its parameters is the body of a procedure.
    obtain ⟨hidden,member,params⟩ : ∃ hidden, (hidden,part) ∈ view.parts ∧ (x ∉ hidden ∨ HasParameter e x) := by
      rcases mem_scopes listed with member | ⟨params,rfl⟩
      · exact ⟨names,member,.inl unbound⟩
      · refine ⟨params,mem_singleton_self _,?_⟩
        by_cases given : x ∈ params
        · exact .inr (.here shown given)
        · exact .inl given
    rcases params with outside | parameter
    · cases depth with
      | zero =>
        rw [nested view shown] at member
        cases member
      | succ depth =>
        rcases ih (nested view shown _ member) with free | parameter
        · exact .inl ((mem_freeNames_form shown).mpr
            ⟨_,member,mem_freeNames_bound.mpr ⟨free,by simpa using outside⟩⟩)
        · exact .inr (.part shown member parameter)
    · exact .inr parameter

end StagedLisp
