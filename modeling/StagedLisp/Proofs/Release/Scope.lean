import StagedLisp.Proofs.Release.Remarks
import StagedLisp.Proofs.Value.Lifting

/-! The variables of a compiled block. What a statement of the block uses is declared by then, or
outside of the block. -/
namespace StagedLisp

open List Step Code BindingPlan LetForm

namespace Step

def Within (scope : Set String) : Step → Prop
  | declare name value note => IsVariable name ∧ value.Within scope ∧ note.IsQuiet
  | assign name value => name ∈ scope ∧ value.Within scope
  | act action => action.Within scope

def scope (outer : Set String) : Step → Set String
  | declare name _ _ => insert name outer
  | assign _ _ => outer
  | act action => action.scope outer

def AllWithin : Set String → List Step → Prop
  | _,[] => True
  | outer,step :: rest => step.Within outer ∧ AllWithin (step.scope outer) rest

variable {outer : Set String} {steps : List Step}

theorem allWithin_append {first second : List Step} : AllWithin outer (first ++ second) ↔
      AllWithin outer first ∧ AllWithin (first.foldl scope outer) second := by
  induction first generalizing outer with
  | nil => simp [AllWithin]
  | cons step first ih => simp [AllWithin,ih,and_assoc]

theorem before_within {last : Block} : (steps.foldr before last).Within outer ↔
      AllWithin outer steps ∧ last.Within (steps.foldl scope outer) := by
  induction steps generalizing outer with
  | nil => simp [AllWithin]
  | cons step steps ih =>
    cases step <;> simp [before,AllWithin,Within,scope,ih,and_assoc]

theorem allWithin_same (each : ∀ step ∈ steps, step.Within outer ∧ step.scope outer = outer) :
    AllWithin outer steps ∧ steps.foldl scope outer = outer := by
  induction steps with
  | nil => simp [AllWithin]
  | cons step steps ih =>
    obtain ⟨within,unchanged⟩ := each step mem_cons_self
    obtain ⟨rest,same⟩ := ih fun s member => each s (.tail _ member)
    rw [AllWithin,foldl_cons,unchanged]
    exact ⟨⟨within,rest⟩,same⟩

theorem silent_scope {step : Step} (silent : step.isSilent) : step.scope outer = outer := by
  cases step with
  | act action => cases action <;> first | rfl | cases silent
  | _ => cases silent

end Step

namespace BindingPlan

/-- The plan is for a variable, and no name that is noted of it ends a comment. -/
structure IsQuiet (p : BindingPlan) : Prop where
  ident : IsVariable p.ident
  mentions : ∀ name ∈ p.mentions, Quiet name

variable {p : BindingPlan}

theorem IsQuiet.name (quiet : p.IsQuiet) : Quiet p.name :=
  quiet.mentions _ mem_cons_self

theorem IsQuiet.noted (quiet : p.IsQuiet) {name : String} (listed : name ∈ p.release.mentions) : Quiet name :=
  quiet.mentions _ (.tail _ (mem_append_right _ listed))

theorem IsQuiet.note (quiet : p.IsQuiet) : p.note.IsQuiet :=
  ⟨quiet.name,fun _ taken => quiet.mentions _ (.tail _ (mem_append_left _ (Option.mem_toList.mpr taken)))⟩

def declares (p : BindingPlan) : Set String :=
  {x | p.init.isSome ∧ (x = p.ident ∨ p.branchDeaths ≠ [] ∧ x = flagName p.ident)}

variable {p : BindingPlan} {c : Code} {outer : Set String}

theorem declaration_within (quiet : p.IsQuiet) (within : c.Within outer) (built : p.init.isSome) :
    Step.AllWithin outer (p.declaration c) ∧ (p.declaration c).foldl Step.scope outer = outer ∪ p.declares := by
  have note := quiet.note
  unfold declaration
  cases deaths : p.branchDeaths with
  | nil =>
    refine ⟨⟨⟨quiet.ident,within,note⟩,trivial⟩,?_⟩
    ext x
    simp [Step.scope,declares,built,deaths,or_comm]
  | cons first rest =>
    refine ⟨⟨⟨quiet.ident,within,note⟩,⟨Set.mem_insert _ _,quiet.ident.flag⟩,trivial⟩,?_⟩
    ext x
    simp [Step.scope,Code.Action.scope,declares,built,deaths,or_comm,or_left_comm,or_assoc]

theorem opening_within (known : p.release ≠ .borrowed → p.ident ∈ outer) :
    ∀ step ∈ p.opening, step.Within outer := by
  intro step member
  unfold opening at member
  split at member
  · next release =>
    cases mem_singleton.mp member
    exact known (by rw [release]; nofun)
  · next release =>
    cases mem_singleton.mp member
    exact ⟨known (by rw [release]; nofun),by decide⟩
  · cases member

theorem earlyRelease_within {index : Nat} {bound : String} (quiet : p.IsQuiet) (calm : Quiet bound)
    (known : ∀ routine, p.release = .early index routine → p.ident ∈ outer) :
    ∀ step ∈ p.earlyRelease index bound, step.Within outer := by
  intro step member
  have remark := (earlyRelease_words quiet_piecewise).mpr (fun _ _ => ⟨quiet.name,calm⟩) step member
  unfold earlyRelease at member
  split at member
  · next after routine release =>
    split at member
    · next same =>
      subst same
      cases mem_singleton.mp member
      exact ⟨known routine release,remark _ rfl⟩
    · cases member
  · cases member

theorem closing_within {action : Action} (quiet : p.IsQuiet)
    (declared : p.declares ⊆ outer) (built : p.init.isSome) (closes : p.closing? = some action) :
    action.Within outer := by
  have ident : p.ident ∈ outer := declared ⟨built,.inl rfl⟩
  have remark : ∀ words ∈ action.remark?, Quiet words :=
    (closing_words quiet_piecewise quiet.name).mpr (fun _ => quiet.noted) action closes
  unfold closing? at closes
  split at closes
  · dsimp only at closes
    split at closes
    · cases closes
      exact ⟨ident,remark _ rfl⟩
    · next dies =>
      cases closes
      exact ⟨ident,declared ⟨built,.inr ⟨by simpa using dies,rfl⟩⟩,remark _ rfl⟩
  · cases closes
    exact ⟨ident,remark _ rfl⟩
  all_goals
    cases closes
    try exact remark _ rfl

end BindingPlan

namespace Plans

def declared (plans : Plans) (count : Nat) : Set String :=
  {x | ∃ j < count, ∃ p, plans[j]? = some p ∧ x ∈ p.declares}

variable {plans : Plans}

theorem declared_mono {count count' : Nat} (fewer : count ≤ count') :
    plans.declared count ⊆ plans.declared count' := by
  rintro x ⟨j,before,there⟩
  exact ⟨j,by omega,there⟩

theorem declared_succ {i : Nat} {p : BindingPlan} (found : plans[i]? = some p) :
    plans.declared (i + 1) = plans.declared i ∪ p.declares := by
  ext x
  constructor
  · rintro ⟨j,before,q,there,declares⟩
    rcases Nat.lt_succ_iff_lt_or_eq.mp before with less | rfl
    · exact .inl ⟨j,less,q,there,declares⟩
    · cases found.symm.trans there
      exact .inr declares
  · rintro (old | new)
    · exact declared_mono i.le_succ old
    · exact ⟨i,Nat.lt_succ_self i,p,found,new⟩

/-- How many of the variables are declared before an initial value is computed. -/
def before (plans : Plans) : LetKind → Nat → Nat
  | .plain,i => i
  | .recursive,_ => plans.length

/-- What is used by each statement of the block is in scope by then. -/
structure Placed (plans : Plans) (kind : LetKind) (outer : Set String) : Prop where
  quiet : ∀ p ∈ plans, p.IsQuiet
  absent : ∀ p ∈ plans, p.init = none → p.release = .borrowed
  early : kind = .plain → ∀ (i : Nat) p after routine, plans[i]? = some p →
    p.release = .early after routine → i ≤ after ∨ p.ident ∈ outer
  inits : ∀ (i : Nat) p c, plans[i]? = some p → p.init = some c →
    c.Within (outer ∪ plans.declared (plans.before kind i))

theorem allWithin_steps {outer : Set String} {steps : BindingPlan × Nat → List Step}
    (each : ∀ (i : Nat) p, plans[i]? = some p → AllWithin (outer ∪ plans.declared i) (steps (p,i)) ∧
        (steps (p,i)).foldl scope (outer ∪ plans.declared i) = outer ∪ plans.declared (i + 1)) :
    AllWithin outer (plans.zipIdx.flatMap steps) ∧ (plans.zipIdx.flatMap steps).foldl scope outer =
        outer ∪ plans.declared plans.length := by
  have start : outer ∪ plans.declared 0 = outer := by
    ext x
    simp [declared]
  have rest (left i : Nat) (reach : i + left = plans.length) :
      AllWithin (outer ∪ plans.declared i) (((plans.drop i).zipIdx i).flatMap steps) ∧
        (((plans.drop i).zipIdx i).flatMap steps).foldl scope (outer ∪ plans.declared i) =
          outer ∪ plans.declared plans.length := by
    induction left generalizing i with
    | zero =>
      obtain rfl : i = plans.length := reach
      simp [AllWithin]
    | succ left ih =>
      obtain ⟨here,scope⟩ := each i plans[i] (getElem?_eq_getElem (by omega))
      obtain ⟨later,last⟩ := ih (i + 1) (by omega)
      rw [drop_eq_getElem_cons (by omega),zipIdx_cons,flatMap_cons,allWithin_append,foldl_append,scope]
      exact ⟨⟨here,later⟩,last⟩
  have all := rest plans.length 0 (Nat.zero_add _)
  rwa [start] at all

section Block

variable {plans : Plans} {kind : LetKind} {outer : Set String} (placed : plans.Placed kind outer)

include placed

variable {i count : Nat} {p : BindingPlan}

theorem Placed.ident (found : plans[i]? = some p) (before : i < count)
    (held : p.release ≠ .borrowed) : p.ident ∈ outer ∪ plans.declared count := by
  refine .inr ⟨i,before,p,found,?_,.inl rfl⟩
  rw [Option.isSome_iff_ne_none]
  exact fun none => held (placed.absent p (mem_of_getElem? found) none)

theorem Placed.afterStatement {index : Nat} (reached : index < count)
    (all : kind = .recursive → plans.length ≤ count) :
    ∀ step ∈ plans.afterStatement index, step.Within (outer ∪ plans.declared count) ∧
        step.scope (outer ∪ plans.declared count) = outer ∪ plans.declared count := by
  intro step member
  refine ⟨?_,silent_scope (afterStatement_silent plans index step member)⟩
  rcases mem_append.mp member with opening | early
  · cases found : plans[index]? with
    | none => simp [found] at opening
    | some p =>
      rw [found] at opening
      exact opening_within (placed.ident found reached) step opening
  · obtain ⟨p,listed,early⟩ := mem_flatMap.mp early
    obtain ⟨i,found⟩ := mem_iff_getElem?.mp listed
    have calm : Quiet ((plans[index]?.map name).getD "") := by
      cases there : plans[index]? with
      | none => decide
      | some q => exact (placed.quiet q (mem_of_getElem? there)).name
    refine earlyRelease_within (placed.quiet p listed) calm (fun routine release => ?_) step early
    have held : p.release ≠ .borrowed := by
      rw [release]
      nofun
    cases kind with
    | plain =>
      rcases placed.early rfl i p index routine found release with before | known
      · exact placed.ident found (by omega) held
      · exact .inl known
    | recursive =>
      have inside := lt_of_getElem? found
      have := all rfl
      exact placed.ident found (by omega) held

theorem Placed.declaration {c : Code} (found : plans[i]? = some p) (built : p.init.isSome)
    (within : c.Within (outer ∪ plans.declared i)) :
    AllWithin (outer ∪ plans.declared i) (p.declaration c) ∧
      (p.declaration c).foldl scope (outer ∪ plans.declared i) = outer ∪ plans.declared (i + 1) := by
  rw [declared_succ found,← Set.union_assoc]
  exact BindingPlan.declaration_within (placed.quiet p (mem_of_getElem? found)) within built

omit placed in
theorem declared_absent (found : plans[i]? = some p) (absent : p.init = none) :
    plans.declared (i + 1) = plans.declared i := by
  rw [declared_succ found]
  ext x
  simp [declares,absent]

omit placed in
theorem Placed.plain_steps (placed : plans.Placed .plain outer) : AllWithin outer (plans.steps .plain) ∧
      (plans.steps .plain).foldl scope outer = outer ∪ plans.declared plans.length := by
  refine allWithin_steps fun i p found => ?_
  obtain ⟨after,same⟩ := allWithin_same (placed.afterStatement i.lt_succ_self nofun)
  dsimp only
  rw [allWithin_append,foldl_append]
  cases init : p.init with
  | none =>
    rw [declared_absent found init] at after same
    rw [declared_absent found init]
    exact ⟨⟨trivial,after⟩,same⟩
  | some c =>
    obtain ⟨first,scope⟩ := placed.declaration found (by rw [init]; rfl) (placed.inits i p c found init)
    simp only [scope]
    exact ⟨⟨first,after⟩,same⟩

omit placed in
theorem Placed.recursive_steps (placed : plans.Placed .recursive outer) : AllWithin outer (plans.steps .recursive) ∧
      (plans.steps .recursive).foldl scope outer = outer ∪ plans.declared plans.length := by
  have indexed (f : BindingPlan → List Step) : plans.flatMap f = plans.zipIdx.flatMap fun entry => f entry.1 := by
    conv_lhs => rw [← zipIdx_map_fst 0 plans,flatMap_map]
  have declared : AllWithin outer (plans.flatMap fun p => if p.init.isSome then p.declaration .null else []) ∧
      (plans.flatMap fun p => if p.init.isSome then p.declaration .null else []).foldl scope
        outer = outer ∪ plans.declared plans.length := by
    rw [indexed]
    refine allWithin_steps fun i p found => ?_
    dsimp only
    split
    · next built => exact placed.declaration found built (by simp)
    · next absent =>
      rw [declared_absent found (by simpa using absent)]
      exact ⟨trivial,rfl⟩
  have assigned : ∀ step ∈ plans.filterMap fun p => p.init.map fun init => assign p.ident init,
      step.Within (outer ∪ plans.declared plans.length) ∧
        step.scope (outer ∪ plans.declared plans.length) = outer ∪ plans.declared plans.length := by
    intro step member
    obtain ⟨p,listed,built⟩ := mem_filterMap.mp member
    obtain ⟨c,init,rfl⟩ := Option.map_eq_some_iff.mp built
    obtain ⟨i,found⟩ := mem_iff_getElem?.mp listed
    have inside := lt_of_getElem? found
    refine ⟨⟨.inr ⟨i,inside,p,found,?_,.inl rfl⟩,placed.inits i p c found init⟩,rfl⟩
    rw [init]
    rfl
  have released : ∀ step ∈ (List.range plans.length).flatMap plans.afterStatement,
      step.Within (outer ∪ plans.declared plans.length) ∧
        step.scope (outer ∪ plans.declared plans.length) = outer ∪ plans.declared plans.length := by
    intro step member
    obtain ⟨i,inside,member⟩ := mem_flatMap.mp member
    exact placed.afterStatement (mem_range.mp inside) (fun _ => le_rfl) step member
  obtain ⟨assignments,same⟩ := allWithin_same assigned
  obtain ⟨releases,last⟩ := allWithin_same released
  simp only [Plans.steps,allWithin_append,foldl_append,declared.2,same]
  exact ⟨⟨⟨declared.1,assignments⟩,releases⟩,last⟩

theorem Placed.steps : AllWithin outer (plans.steps kind) ∧
    (plans.steps kind).foldl scope outer = outer ∪ plans.declared plans.length := by
  cases kind with
  | plain => exact placed.plain_steps
  | recursive => exact placed.recursive_steps

/-- The block uses what is declared outside, if the result uses that and the variables of the
block. -/
theorem Placed.blockAround {result : Code} (within : result.Within (outer ∪ plans.declared plans.length)) :
    (plans.blockAround kind result).Within outer := by
  obtain ⟨all,scope⟩ := placed.steps
  rw [Plans.blockAround,Code.Within,Step.before_within,scope,Code.Block.Within]
  refine ⟨all,within,fun action member => ?_⟩
  obtain ⟨p,listed,closes⟩ := mem_filterMap.mp member
  obtain ⟨listed,built⟩ := mem_filter.mp listed
  have member := mem_reverse.mp listed
  obtain ⟨i,found⟩ := mem_iff_getElem?.mp member
  have inside := lt_of_getElem? found
  refine (closing_within (placed.quiet p member) ?_ built closes).mono (Set.subset_insert _ _)
  exact fun x declares => .inr ⟨i,inside,p,found,declares⟩

end Block

end Plans

theorem Value.declared_of_material {v : Value} (material : v.isMaterial) :
    ∃ c, v.declared? = some c ∧ v.lift = .ok c := by
  have can : v.canLift := by
    cases v with
    | pair => exact material
    | int | nil | code => rfl
    | _ => cases material
  obtain ⟨c,lifted⟩ := lift_of_canLift can
  exact ⟨c,by rw [declared?,if_pos material,lifted]; rfl,lifted⟩

namespace LetForm

def idents (form : LetForm) (values : List Value) (count : Nat) : Set String :=
  {x | ∃ j < count, ∃ b v, form.bindings[j]? = some b ∧ values[j]? = some v ∧ v.isMaterial ∧
    x = identifier b.name}

def reach (form : LetForm) (i : Nat) : Nat :=
  match form.kind with
  | .plain => i
  | .recursive => form.bindings.length

end LetForm

namespace Plans

variable {form : LetForm} {values : List Value} {known : Table Shape} {options : Options} {outer : Set String}

theorem idents_declared {pooling : Bool} {deaths : String → List (Nat × Nat)} {plans : Plans}
    (settled : Settled form values pooling deaths plans) (count : Nat) :
    form.idents values count ⊆ plans.declared count := by
  rintro x ⟨j,before,b,v,bound,valued,material,rfl⟩
  obtain ⟨p,found,_,ident⟩ := settled.plan_at (name_at bound)
  refine ⟨j,before,p,found,?_,.inl ident.symm⟩
  obtain ⟨c,declared,_⟩ := Value.declared_of_material material
  have builds := settled.built j p v found valued
  unfold BindingPlan.Builds at builds
  split at builds
  · obtain ⟨_,_,_,_,_,init⟩ := builds
    rw [init]
    rfl
  · rw [builds,declared]
    rfl

/-- The plans of a form fit where its values can be computed: what each of them uses is declared
outside or by an earlier binding. -/
theorem ofForm_placed (distinct : form.names.Nodup) (full : values.length = form.bindings.length)
    (named : form.Named Quiet)
    (apart : form.kind = .plain → ∀ x, ¬ form.HidesLate x)
    (within : ∀ (i : Nat) v c, values[i]? = some v → v.declared? = some c →
      c.Within (outer ∪ form.idents values (form.reach i))) :
    (ofForm form values (Analysis.ofForm form known options) options).Placed form.kind outer := by
  have settled : Settled form values _ _ (ofForm form values (Analysis.ofForm form known options) options) :=
    ofForm_settled distinct full
  have mentions : ∀ p ∈ ofForm form values (Analysis.ofForm form known options) options,
      ∀ name ∈ p.mentions, Quiet name := ofForm_mentions distinct full named
  have count := settled.length
  have reach (i : Nat) : (ofForm form values (Analysis.ofForm form known options) options).before
      form.kind i = form.reach i := by
    unfold before reach
    cases form.kind with
    | plain => rfl
    | recursive => exact count
  refine ⟨fun p member => ⟨?_,mentions p member⟩,settled.absent,?_,?_⟩
  · rw [settled.idents p member]
    exact identifier_isVariable p.name
  · intro plain i p after routine found early
    exact .inl (released_after_declaration distinct full plain found early (apart plain p.name)).le
  · intro i p c found init
    have inside := lt_of_getElem? found
    obtain ⟨v,valued⟩ : ∃ v, values[i]? = some v := ⟨_,getElem?_eq_getElem (by omega)⟩
    have own (d : Code) (declared : v.declared? = some d) := (within i v d valued declared).mono
      (Set.union_subset_union_right outer (idents_declared settled (form.reach i)))
    rw [reach]
    have builds := settled.built i p v found valued
    unfold BindingPlan.Builds at builds
    split at builds
    · next donor reuses =>
      obtain ⟨_,d,taken,declared,reused,built⟩ := builds
      cases built.symm.trans init
      obtain ⟨j,q,there,name,made,earlier⟩ := taken_after_declaration distinct full found reuses
      refine within_reusing reused (.inr ⟨j,?_,q,there,made,.inl ?_⟩) (own d declared)
      · unfold LetForm.reach
        cases kind : form.kind with
        | plain => exact earlier kind (apart kind donor)
        | recursive =>
          have := lt_of_getElem? there
          exact count ▸ this
      · rw [settled.idents q (mem_of_getElem? there),name]
    · rw [builds] at init
      obtain ⟨d,declared,rfl⟩ := Option.map_eq_some_iff.mp init
      split
      · exact within_pooled (own d declared)
      · exact own d declared

end Plans

end StagedLisp
