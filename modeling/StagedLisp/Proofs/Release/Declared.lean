import StagedLisp.Proofs.Code.Meaning
import StagedLisp.Release.Block

/-! The object that a compiled block computes. Each declaration adds its variable, and a flag where
there is one, to the scope of what follows; the result sees all of them. -/
namespace StagedLisp

open List Code BindingPlan
open Support (Contents)

variable {x : String} {count : Nat}

theorem Code.flagName_last (target : String) : (flagName target).toList.getLast? = some 'd' := by
  simp [flagName]

theorem Code.ne_flagName {word : String} (last : word.toList.getLast? ≠ some 'd')
    (target : String) : flagName target ≠ word := by
  intro same
  exact last (same ▸ flagName_last target)

theorem Code.flagName_inj {a b : String} : flagName a = flagName b ↔ a = b := by
  constructor
  · intro same
    have lists := congrArg String.toList same
    simp only [flagName,String.toList_append,append_cancel_right_eq] at lists
    exact String.toList_inj.mp lists
  · exact congrArg flagName

theorem Code.flagName_ne_self (target : String) : flagName target ≠ target := by
  intro same
  have lengths := congrArg (fun s => s.toList.length) same
  simp [flagName] at lengths

theorem Code.flagName_not_word (target : String) : flagName target ∉ otherWords := by
  intro member
  have words : ∀ word ∈ otherWords, word.toList.getLast? ≠ some 'd' := by decide +kernel
  exact words _ member (flagName_last target)

theorem Code.flagName_ne_result (target : String) : flagName target ≠ resultName :=
  ne_flagName (by decide) target

theorem Code.identifier_ne_result (name : String) : identifier name ≠ resultName := by
  unfold identifier
  split
  · intro same
    have starts : ("v_" ++ spelled name).toList.head? = some 'v' := by simp
    rw [same] at starts
    cases starts
  · next free =>
    intro same
    exact free (by simp [isReserved,same])

def Step.isSilent : Step → Bool
  | act (.flag _) => false
  | act _ => true
  | _ => false

theorem Step.silent_value {steps : List Step} (silent : ∀ step ∈ steps, step.isSilent)
    (rest : Block) (outer own : Scope) :
    (steps.foldr Step.before rest).value? outer own = rest.value? outer own := by
  induction steps with
  | nil => rfl
  | cons step steps ih =>
    have first := silent step mem_cons_self
    rw [foldr_cons,← ih fun step member => silent step (.tail _ member)]
    cases step with
    | act action => cases action <;> simp_all [isSilent,before,Block.value?]
    | _ => cases first

namespace BindingPlan

variable {p : BindingPlan}

def scope (p : BindingPlan) (o : Contents) : Scope :=
  (if p.branchDeaths.isEmpty then [] else [(flagName p.ident,.flag)]) ++ [(p.ident,.object o)]

theorem scope_ident (o : Contents) : (p.scope o).lookup p.ident = some (.object o) := by
  unfold scope
  split
  · simp
  · have other : (p.ident == flagName p.ident) = false := beq_false_of_ne (flagName_ne_self _).symm
    simp [lookup_cons,other]

theorem scope_flag (o : Contents) (dies : p.branchDeaths ≠ []) :
    (p.scope o).lookup (flagName p.ident) = some .flag := by
  simp [scope,dies]

theorem scope_other (o : Contents) (ident : x ≠ p.ident)
    (flag : x ≠ flagName p.ident) : (p.scope o).lookup x = none := by
  unfold scope
  split <;> simp [lookup_cons,beq_false_of_ne ident,beq_false_of_ne flag]

theorem declaration_value {c : Code} {o : Contents} {outer own : Scope}
    (rest : Block) (new : canDeclare own p.ident)
    (flag : (own.lookup (flagName p.ident)).isNone)
    (valued : c.value? ((p.ident,.unset) :: own ++ outer) = some o) :
    ((p.declaration c).foldr Step.before rest).value? outer own = rest.value? outer (p.scope o ++ own) := by
  have canFlag : canDeclare ((p.ident,.object o) :: own) (flagName p.ident) := by
    simp [canDeclare,lookup_cons,beq_false_of_ne (flagName_ne_self p.ident),flag,flagName_not_word]
  unfold declaration scope
  rw [cons_append] at valued
  split <;> simp [Step.before,Block.value?,new,valued,canFlag]

end BindingPlan

namespace Plans

/-- The variables and flags of the plans have names of their own, which can be declared. -/
structure Declarable (plans : Plans) : Prop where
  distinct : (plans.map ident).Nodup
  flags : ∀ p ∈ plans, ∀ q ∈ plans, p.ident ≠ flagName q.ident
  words : ∀ p ∈ plans, p.ident ∉ otherWords
  result : ∀ p ∈ plans, p.ident ≠ resultName

/-- The variables of the first so many plans, with these values. -/
def scopeAfter (plans : Plans) (objects : List Contents) (count : Nat) : Scope :=
  ((plans.zip objects).take count).reverse.flatMap fun entry => entry.1.scope entry.2

variable {plans : Plans} {objects : List Contents} {i j : Nat} {p q : BindingPlan} {o : Contents}

theorem scopeAfter_succ (found : plans[i]? = some p) (valued : objects[i]? = some o) :
    plans.scopeAfter objects (i + 1) = p.scope o ++ plans.scopeAfter objects i := by
  have here : (plans.zip objects)[i]? = some (p,o) := getElem?_zip_eq_some.mpr ⟨found,valued⟩
  rw [scopeAfter,scopeAfter,take_add_one,here]
  simp

theorem Declarable.apart (declarable : plans.Declarable) (first : plans[i]? = some p)
    (second : plans[j]? = some q) (different : i ≠ j) : p.ident ≠ q.ident := by
  intro same
  have inside := (List.getElem?_eq_some_iff.mp first).1
  refine different ((getElem?_inj (by simpa using inside) declarable.distinct).mp ?_)
  simp [first,second,same]

theorem scopeAfter_skip (found : plans[i]? = some p) (valued : objects[i]? = some o)
    (ident : x ≠ p.ident) (flag : x ≠ flagName p.ident) :
    (plans.scopeAfter objects (i + 1)).lookup x = (plans.scopeAfter objects i).lookup x := by
  rw [scopeAfter_succ found valued,lookup_append,scope_other o ident flag,Option.none_or]

theorem scopeAfter_other (full : objects.length = plans.length) 
    (inside : count ≤ plans.length)
    (other : ∀ p ∈ plans.take count, x ≠ p.ident ∧ x ≠ flagName p.ident) :
    (plans.scopeAfter objects count).lookup x = none := by
  induction count with
  | zero => simp [scopeAfter]
  | succ count ih =>
    have found : plans[count]? = some plans[count] := getElem?_eq_getElem (by omega)
    have valued : objects[count]? = some objects[count] := getElem?_eq_getElem (by omega)
    have listed : plans[count] ∈ plans.take (count + 1) := mem_take_iff_getElem.mpr ⟨count,by omega,rfl⟩
    obtain ⟨ident,flag⟩ := other _ listed
    rw [scopeAfter_skip found valued ident flag]
    refine ih (by omega) fun p member => other p ?_
    exact (take_prefix_take_left (by omega)).subset member

section Lookup

variable (declarable : plans.Declarable) (full : objects.length = plans.length) (found : plans[j]? = some p)

include declarable full found

theorem scopeAfter_ident (before : j < count) (inside : count ≤ plans.length)
    (valued : objects[j]? = some o) :
    (plans.scopeAfter objects count).lookup p.ident = some (.object o) := by
  induction count with
  | zero => omega
  | succ count ih =>
    have last : plans[count]? = some plans[count] := getElem?_eq_getElem (by omega)
    have value : objects[count]? = some objects[count] := getElem?_eq_getElem (by omega)
    by_cases same : j = count
    · subst same
      rw [scopeAfter_succ found valued,lookup_append,scope_ident]
      rfl
    · rw [scopeAfter_skip last value (declarable.apart found last same)
        (declarable.flags p (mem_of_getElem? found) _ (mem_of_getElem? last))]
      exact ih (by omega) (by omega)

theorem scopeAfter_flag (before : j < count) (inside : count ≤ plans.length)
    (dies : p.branchDeaths ≠ []) :
    (plans.scopeAfter objects count).lookup (flagName p.ident) = some .flag := by
  induction count with
  | zero => omega
  | succ count ih =>
    have last : plans[count]? = some plans[count] := getElem?_eq_getElem (by omega)
    have value : objects[count]? = some objects[count] := getElem?_eq_getElem (by omega)
    by_cases same : j = count
    · subst same
      rw [scopeAfter_succ found value,lookup_append,scope_flag _ dies]
      rfl
    · have ident := declarable.flags _ (mem_of_getElem? last) p (mem_of_getElem? found)
      have flag : flagName p.ident ≠ flagName plans[count].ident := fun equal =>
        declarable.apart found last same (flagName_inj.mp equal)
      rw [scopeAfter_skip last value ident.symm flag]
      exact ih (by omega) (by omega)

theorem scopeAfter_new : canDeclare (plans.scopeAfter objects j) p.ident ∧
    ((plans.scopeAfter objects j).lookup (flagName p.ident)).isNone := by
  have inside := (List.getElem?_eq_some_iff.mp found).1
  have member := mem_of_getElem? found
  have earlier {q : BindingPlan} (listed : q ∈ plans.take j) : q ∈ plans ∧ p.ident ≠ q.ident := by
    obtain ⟨k,below,rfl⟩ := mem_take_iff_getElem.mp listed
    have there : plans[k]? = some plans[k] := getElem?_eq_getElem (by omega)
    exact ⟨mem_of_getElem? there,declarable.apart found there (by omega)⟩
  have ident : (plans.scopeAfter objects j).lookup p.ident = none :=
    scopeAfter_other full (by omega) fun q listed =>
      ⟨(earlier listed).2,declarable.flags p member q (earlier listed).1⟩
  have flag : (plans.scopeAfter objects j).lookup (flagName p.ident) = none :=
    scopeAfter_other full (by omega) fun q listed =>
      ⟨(declarable.flags q (earlier listed).1 p member).symm,
        fun equal => (earlier listed).2 (flagName_inj.mp equal)⟩
  refine ⟨?_,by simp [flag]⟩
  simp [canDeclare,ident,declarable.words p member]

end Lookup

theorem afterStatement_silent (plans : Plans) (index : Nat) :
    ∀ step ∈ plans.afterStatement index, step.isSilent := by
  intro step member
  rcases mem_append.mp member with opening | early
  · cases found : plans[index]? with
    | none => simp [found] at opening
    | some p =>
      simp only [found,Option.map_some,Option.getD_some,BindingPlan.opening] at opening
      split at opening <;> simp at opening <;> rw [opening] <;> rfl
  · obtain ⟨p,_,early⟩ := mem_flatMap.mp early
    unfold BindingPlan.earlyRelease at early
    split at early
    · split at early <;> simp at early
      rw [early]
      rfl
    · cases early

section Block

variable (declarable : plans.Declarable) (full : objects.length = plans.length)
  {outer : Scope} (valued : ∀ (i : Nat) p o, plans[i]? = some p → objects[i]? = some o → ∃ c, p.init = some c ∧
      c.value? ((p.ident,.unset) :: plans.scopeAfter objects i ++ outer) = some o)

include declarable full valued

theorem declared_value {steps : BindingPlan × Nat → List Step}
    (each : ∀ (i : Nat) p c, plans[i]? = some p → p.init = some c →
      steps (p,i) = p.declaration c ++ plans.afterStatement i)
    (last : Block) (left : Nat) (start : i + left = plans.length) :
    ((((plans.drop i).zipIdx i).flatMap steps).foldr Step.before last).value? outer (plans.scopeAfter objects i) =
      last.value? outer (plans.scopeAfter objects plans.length) := by
  induction left generalizing i with
  | zero =>
    obtain rfl : i = plans.length := start
    simp
  | succ left ih =>
    have found : plans[i]? = some plans[i] := getElem?_eq_getElem (by omega)
    have value : objects[i]? = some objects[i] := getElem?_eq_getElem (by omega)
    obtain ⟨c,init,computes⟩ := valued i _ _ found value
    obtain ⟨new,flag⟩ := scopeAfter_new declarable full found
    rw [drop_eq_getElem_cons (by omega),zipIdx_cons,flatMap_cons,each i _ c found init,append_assoc,foldr_append,
      declaration_value _ new flag computes,foldr_append,
      Step.silent_value (afterStatement_silent plans i),← scopeAfter_succ found value]
    exact ih (by omega)

/-- A block whose initialisers have the given values computes its result with all of them in
scope. -/
theorem blockAround_value (result : Code) : (plans.blockAround .plain result).value? outer =
    result.value? ((resultName,.unset) :: plans.scopeAfter objects plans.length ++ outer) := by
  have own : (plans.scopeAfter objects plans.length).lookup resultName = none := by
    refine scopeAfter_other full (Nat.le_refl _) fun p listed => ?_
    have member := take_subset _ _ listed
    exact ⟨(declarable.result p member).symm,(flagName_ne_result _).symm⟩
  have can : canDeclare (plans.scopeAfter objects plans.length) resultName := by
    rw [canDeclare,own]
    decide
  have start : plans.scopeAfter objects 0 = [] := by simp [scopeAfter]
  have finish : (Block.finish result plans.closing).value? outer
      (plans.scopeAfter objects plans.length) = result.value?
        ((resultName,.unset) :: plans.scopeAfter objects plans.length ++ outer) := by
    rw [Block.value?,if_pos can]
  rw [blockAround,value?,steps,← start,← finish]
  exact declared_value declarable full valued (i := 0) (fun i p c _ init => by simp only [init])
    _ _ (Nat.zero_add _)

end Block

end Plans

end StagedLisp
