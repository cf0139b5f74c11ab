import StagedLisp.Proofs.Analysis
import StagedLisp.Proofs.Reuse
import StagedLisp.Release.Plan

/-! Donated cells. Each pair of the reuse analysis has a receiver of its own, so a plan takes over
at most one cell, and the cell of a donor goes to exactly one plan. -/
namespace StagedLisp

open List BindingPlan Code Analysis

variable {p receiver : BindingPlan} {i : Nat} {init : Code}

def Value.declared? (value : Value) : Option Code :=
  if value.isMaterial then value.lift.toOption else none

def Release.isDonated : Release → Bool
  | donated _ => true
  | _ => false

namespace BindingPlan

/-- The plan builds the value: in the cell of a donor among the names, or else in a cell of its own,
which comes from the pool if the value stays inside the block. -/
def Builds (pooling : Bool) (names : List String) (p : BindingPlan) (value : Value) : Prop :=
  match p.reuses with
  | some donor => donor ∈ names ∧ ∃ own taken, value.declared? = some own ∧
      reusing? (identifier donor) own = some taken ∧ p.init = some taken
  | none => p.init = value.declared?.map (if pooling && p.stack then pooled else id)

/-- Only what is given back at the end may be given back on a branch before. -/
theorem mem_branchReleases {r : BranchRelease} (member : r ∈ p.branchReleases) :
    r.drop.target = p.ident ∧ p.branchDeaths ≠ [] ∧ ∃ routine, p.release = .atEnd routine := by
  unfold branchReleases at member
  split at member
  · next routine released =>
    obtain ⟨_,listed,rfl⟩ := mem_map.mp member
    exact ⟨rfl,ne_nil_of_mem listed,routine,released⟩
  · cases member

end BindingPlan

namespace Plans

/-- What holds of the plans of a form at every stage of planning. -/
structure Settled (form : LetForm) (values : List Value) (pooling : Bool)
    (deaths : String → List (Nat × Nat)) (plans : Plans) : Prop where
  names : plans.map name = form.names
  idents : ∀ p ∈ plans, p.ident = identifier p.name
  built : ∀ (i : Nat) p value, plans[i]? = some p → values[i]? = some value → p.Builds pooling form.names value
  absent : ∀ p ∈ plans, p.init = none → p.release = .borrowed
  timely : ∀ p ∈ plans, ∀ after routine, p.release = .early after routine → after < form.bindings.length
  given : ∀ p ∈ plans, plans.countP (·.reuses == some p.name) = if p.release.isDonated then 1 else 0
  branches : ∀ p ∈ plans, p.branchDeaths = [] ∨ p.branchDeaths = deaths p.name

variable {form : LetForm} {values : List Value} {pooling : Bool}
  {deaths : String → List (Nat × Nat)} {plans : Plans}

section

variable (settled : Settled form values pooling deaths plans)

include settled

theorem Settled.unique (distinct : form.names.Nodup) {q : BindingPlan} (memberP : p ∈ plans)
    (memberQ : q ∈ plans) (same : p.name = q.name) : p = q :=
  inj_on_of_nodup_map (settled.names ▸ distinct) memberP memberQ same

theorem Settled.length : plans.length = form.bindings.length := by
  simpa [LetForm.names] using congrArg List.length settled.names

theorem Settled.name_at (found : plans[i]? = some p) :
    form.names[i]? = some p.name ∧ p.ident = identifier p.name := by
  refine ⟨?_,settled.idents p (mem_of_getElem? found)⟩
  rw [← settled.names,getElem?_map,found]
  rfl

theorem Settled.plan_at {x : String} (found : form.names[i]? = some x) :
    ∃ p, plans[i]? = some p ∧ p.name = x ∧ p.ident = identifier x := by
  rw [← settled.names,getElem?_map] at found
  obtain ⟨p,here,rfl⟩ := Option.map_eq_some_iff.mp found
  exact ⟨p,here,rfl,settled.idents p (mem_of_getElem? here)⟩

theorem Settled.map {pooling' : Bool} {f : BindingPlan → BindingPlan}
    (name : ∀ p, (f p).name = p.name) (ident : ∀ p, (f p).ident = p.ident)
    (reuses : ∀ p, (f p).reuses = p.reuses) (release : ∀ p, (f p).release = p.release)
    (init : ∀ p, (f p).init = none → p.init = none)
    (built : ∀ p value, p.Builds pooling form.names value → (f p).Builds pooling' form.names value)
    (branches : ∀ p, (f p).branchDeaths = p.branchDeaths ∨ (f p).branchDeaths = deaths p.name) :
    Settled form values pooling' deaths (plans.map f) where
  names := by
    rw [← settled.names,map_map]
    exact map_congr_left fun p _ => name p
  idents := forall_mem_map.mpr fun p listed => by
    rw [ident,name]
    exact settled.idents p listed
  built := by
    intro i q value found there
    rw [getElem?_map] at found
    obtain ⟨p,here,rfl⟩ := Option.map_eq_some_iff.mp found
    exact built p value (settled.built i p value here there)
  absent := forall_mem_map.mpr fun p listed none => by
    rw [release]
    exact settled.absent p listed (init p none)
  timely := forall_mem_map.mpr fun p listed after routine early => by
    rw [release] at early
    exact settled.timely p listed after routine early
  given := forall_mem_map.mpr fun p listed => by
    have counted := settled.given p listed
    rw [countP_map,name,release,← counted]
    apply countP_congr
    intro p _
    simp [reuses]
  branches := forall_mem_map.mpr fun p listed => by
    rw [name]
    rcases branches p with same | dead
    · rw [same]
      exact settled.branches p listed
    · exact .inr dead

end

/-- The change of plans by which the cell of one goes to another. -/
def handOver (pair : ReusePair) (init : Code) (p : BindingPlan) : BindingPlan :=
  { p with
    init := if p.name = pair.alloc then some init else p.init
    reuses := if p.name = pair.alloc then some pair.freed else p.reuses
    release := if p.name = pair.freed then .donated pair.alloc else p.release }

theorem donate_cases (plans : Plans) (pair : ReusePair) : plans.donate pair = plans ∨
      ∃ donor receiver own init, donor ∈ plans ∧ donor.name = pair.freed ∧ donor.isEarly ∧
        receiver ∈ plans ∧ receiver.name = pair.alloc ∧ receiver.init = some own ∧
        reusing? donor.ident own = some init ∧
        plans.donate pair = plans.map (handOver pair init) := by
  unfold donate
  split
  · next donor receiver foundDonor foundReceiver =>
    split
    · next early =>
      split
      · exact .inl rfl
      · next init taken =>
        obtain ⟨own,built,taken⟩ := Option.bind_eq_some_iff.mp taken
        have nameDonor := find?_some foundDonor
        have nameReceiver := find?_some foundReceiver
        refine .inr ⟨donor,receiver,own,init,mem_of_find?_eq_some foundDonor,
          by simpa using nameDonor,early,mem_of_find?_eq_some foundReceiver,
          by simpa using nameReceiver,built,taken,?_⟩
        rw [update,update,map_map]
        apply map_congr_left
        intro p _
        by_cases alloc : p.name = pair.alloc <;> by_cases freed : p.name = pair.freed <;>
          simp [handOver,alloc,freed]
        all_goals simp_all
    · exact .inl rfl
  · exact .inl rfl

def beforeReuse (form : LetForm) (values : List Value) (a : Analysis) (options : Options) : Plans :=
  (form.bindings.zip values).map fun entry => ofBinding a options entry.1 entry.2

section Stages

variable {a : Analysis} {options : Options} {P : BindingPlan → Prop}

/-- What holds of the plan of each binding at first, is kept when a cell is handed over, and does not
depend on branches or on how a value is built, holds of the plans of a form. With distinct names only an
early plan gives its cell away, and only one with a value takes it. -/
theorem ofForm_all (initial : ∀ b ∈ form.bindings, ∀ value, P (ofBinding a options b value))
    (handed : ∀ pair ∈ a.reuse.pairs, ∀ init p, P p → (form.names.Nodup →
      (p.name = pair.freed → p.isEarly) ∧ (p.name = pair.alloc → p.init.isSome)) →
      P (handOver pair init p))
    (reads : ∀ p init deaths, init.isSome = p.init.isSome → P p →
      P { p with init := init, branchDeaths := deaths }) :
    ∀ p ∈ ofForm form values a options, P p := by
  have donated (pairs : List ReusePair) (plans : Plans) (known : ∀ pair ∈ pairs, pair ∈ a.reuse.pairs)
      (names : form.names.Nodup → (plans.map name).Nodup) (all : ∀ p ∈ plans, P p) :
      ∀ p ∈ pairs.foldl donate plans, P p := by
    induction pairs generalizing plans with
    | nil => exact all
    | cons pair pairs ih =>
      have others := fun pair member => known pair (.tail _ member)
      rw [foldl_cons]
      rcases donate_cases plans pair with same | ⟨donor,receiver,own,init,fromDonor,freed,early,
        toReceiver,alloc,built,_,equal⟩
      · rw [same]
        exact ih plans others names all
      · rw [equal]
        refine ih _ others (fun distinct => ?_) ?_
        · simpa [handOver,Function.comp_def] using names distinct
        intro q member
        obtain ⟨p,listed,rfl⟩ := mem_map.mp member
        refine handed pair (known pair mem_cons_self) init p (all p listed) fun distinct => ?_
        have same {other : BindingPlan} (there : other ∈ plans) (named : p.name = other.name) : p = other :=
          inj_on_of_nodup_map (names distinct) listed there named
        refine ⟨fun gives => ?_,fun takes => ?_⟩
        · rwa [same fromDonor (gives.trans freed.symm)]
        · rw [same toReceiver (takes.trans alloc.symm),built]
          rfl
  have started : ∀ p ∈ beforeReuse form values a options, P p :=
    forall_mem_map.mpr fun entry listed => initial _ (of_mem_zip listed).1 _
  have names (distinct : form.names.Nodup) : ((beforeReuse form values a options).map name).Nodup := by
    have shorter : ((form.bindings.zip values).map Prod.fst).Sublist form.bindings := by
      rw [zip_eq_zip_take_min,map_fst_zip (by simp)]
      exact take_sublist _ _
    rw [beforeReuse,map_map]
    have only : (name ∘ fun entry : Binding × Value =>
        ofBinding a options entry.1 entry.2) = Binding.name ∘ Prod.fst := rfl
    rw [only,← map_map]
    exact distinct.sublist (shorter.map _)
  have reused : ∀ p ∈ if options.reuse then
      a.reuse.pairs.foldl donate (beforeReuse form values a options)
      else beforeReuse form values a options, P p := by
    split
    · exact donated _ _ (fun _ => id) names started
    · exact started
  have kept {plans : Plans} {f : BindingPlan → BindingPlan} (keeps : ∀ p, P p → P (f p))
      (all : ∀ p ∈ plans, P p) : ∀ p ∈ plans.map f, P p :=
    forall_mem_map.mpr fun p listed => keeps p (all p listed)
  unfold ofForm
  refine kept (fun p holds => ?_) ?_
  · unfold onBranches
    repeat' split
    · exact holds
    · exact reads p p.init _ rfl holds
    · exact holds
  · split
    · refine kept (fun p holds => ?_) reused
      unfold usePool
      split
      · exact reads p _ p.branchDeaths (by simp) holds
      · exact holds
    · exact reused

end Stages

variable {pair : ReusePair} {a : Analysis}

theorem countP_handOver 
    (distinct : (plans.map name).Nodup) (member : receiver ∈ plans)
    (name : receiver.name = pair.alloc) (empty : receiver.reuses = none) (donor : String) :
    (plans.map (handOver pair init)).countP (·.reuses == some donor) =
      plans.countP (·.reuses == some donor) + if pair.freed = donor then 1 else 0 := by
  obtain ⟨before,after,rfl⟩ := append_of_mem member
  have others (p : BindingPlan) (different : p.name ≠ pair.alloc) : (handOver pair init p).reuses = p.reuses := by
    simp [handOver,different]
  have same (part : Plans) (absent : pair.alloc ∉ part.map BindingPlan.name) :
      (part.map (handOver pair init)).countP (·.reuses == some donor) = part.countP (·.reuses == some donor) := by
    rw [countP_map]
    apply countP_congr
    intro p listed
    have different : p.name ≠ pair.alloc := fun equal =>
      absent (equal ▸ mem_map_of_mem listed)
    simp [others p different]
  rw [map_append,map_cons,nodup_append,nodup_cons] at distinct
  obtain ⟨_,⟨absentAfter,_⟩,apart⟩ := distinct
  have absentBefore : receiver.name ∉ before.map BindingPlan.name := fun there =>
    apart _ there _ mem_cons_self rfl
  rw [name] at absentAfter absentBefore
  have taken : (handOver pair init receiver).reuses = some pair.freed := by
    simp [handOver,name]
  rw [map_append,map_cons,countP_append,countP_append,countP_cons,
    countP_cons,same before absentBefore,same after absentAfter,taken,empty]
  by_cases equal : pair.freed = donor <;> simp [equal]
  omega

/-- No plan that one of the pairs gives a cell to has taken one over yet. -/
def Awaits (plans : Plans) (pairs : List ReusePair) : Prop :=
  ∀ p ∈ plans, p.name ∈ pairs.map ReusePair.alloc → p.reuses = none

section

variable (settled : Settled form values false deaths plans) (distinct : form.names.Nodup)

include settled distinct

theorem Settled.handOver {donor : BindingPlan} {own : Code}
    (fromDonor : donor ∈ plans) (freed : donor.name = pair.freed) (early : donor.isEarly)
    (toReceiver : receiver ∈ plans) (alloc : receiver.name = pair.alloc)
    (built : receiver.init = some own) (taken : reusing? donor.ident own = some init)
    (empty : receiver.reuses = none) :
    Settled form values false deaths (plans.map (Plans.handOver pair init)) where
  names := by
    rw [map_map]
    exact settled.names
  idents := forall_mem_map.mpr settled.idents
  built := by
    intro i q value found there
    rw [getElem?_map] at found
    obtain ⟨p,here,rfl⟩ := Option.map_eq_some_iff.mp found
    have builds := settled.built i p value here there
    by_cases receives : p.name = pair.alloc
    · have same := settled.unique distinct (mem_of_getElem? here) toReceiver (receives.trans alloc.symm)
      subst same
      simp only [Builds,empty,built] at builds
      have declared : value.declared? = some own := by simpa using builds.symm
      have known : pair.freed ∈ form.names := by
        rw [← settled.names,← freed]
        exact mem_map_of_mem fromDonor
      rw [settled.idents donor fromDonor,freed] at taken
      simp only [BindingPlan.Builds,Plans.handOver,receives,if_true]
      exact ⟨known,own,init,declared,taken,rfl⟩
    · simpa [BindingPlan.Builds,Plans.handOver,receives] using builds
  absent := forall_mem_map.mpr fun p listed none => by
    simp only [Plans.handOver] at none ⊢
    split at none
    · cases none
    · have release := settled.absent p listed none
      rw [if_neg]
      · exact release
      · intro same
        have equal := settled.unique distinct listed fromDonor (same.trans freed.symm)
        rw [← equal,isEarly,release] at early
        cases early
  timely := forall_mem_map.mpr fun p listed after routine released => by
    simp only [Plans.handOver] at released
    split at released
    · cases released
    · exact settled.timely p listed after routine released
  given := forall_mem_map.mpr fun p listed => by
    have counted := settled.given p listed
    have name : (Plans.handOver pair init p).name = p.name := rfl
    have release : (Plans.handOver pair init p).release =
      if p.name = pair.freed then .donated pair.alloc else p.release := rfl
    rw [countP_handOver (settled.names ▸ distinct) toReceiver alloc empty,name,counted,release]
    by_cases donates : p.name = pair.freed
    · have equal := settled.unique distinct listed fromDonor (donates.trans freed.symm)
      have kept : p.release.isDonated = false := by
        rw [equal]
        unfold isEarly at early
        cases release : donor.release <;> simp [release,Release.isDonated] at early ⊢
      rw [kept]
      simp [donates,Release.isDonated]
    · have other : ¬ pair.freed = p.name := fun same => donates same.symm
      simp [donates,other]
  branches := forall_mem_map.mpr settled.branches

theorem donate_settled {rest : List ReusePair} (awaits : plans.Awaits (pair :: rest))
    (fresh : pair.alloc ∉ rest.map ReusePair.alloc) :
    Settled form values false deaths (plans.donate pair) ∧ (plans.donate pair).Awaits rest := by
  rcases donate_cases plans pair with same | ⟨donor,receiver,own,init,fromDonor,freed,early,
    toReceiver,alloc,built,taken,equal⟩
  · rw [same]
    exact ⟨settled,fun p listed later => awaits p listed (.tail _ later)⟩
  · have empty := awaits receiver toReceiver (alloc ▸ mem_cons_self)
    rw [equal]
    refine ⟨settled.handOver distinct fromDonor freed early toReceiver alloc built taken empty,?_⟩
    intro q member later
    obtain ⟨p,listed,rfl⟩ := mem_map.mp member
    have later : p.name ∈ rest.map ReusePair.alloc := later
    have different : p.name ≠ pair.alloc := fun same => fresh (same ▸ later)
    simpa [handOver,different] using awaits p listed (.tail _ later)

end

theorem foldl_donate_settled (pairs : List ReusePair)
    (settled : Settled form values false deaths plans) (distinct : form.names.Nodup)
    (awaits : plans.Awaits pairs) (once : (pairs.map ReusePair.alloc).Nodup) :
    Settled form values false deaths (pairs.foldl donate plans) := by
  induction pairs generalizing plans with
  | nil => exact settled
  | cons pair rest ih =>
    obtain ⟨fresh,once⟩ := nodup_cons.mp once
    obtain ⟨settled,awaits⟩ := donate_settled settled distinct awaits fresh
    exact ih settled awaits once

section ReleaseOf

variable {a : Analysis} {options : Options} {name : String} {shape : Shape} {routine : Routine} {after : Nat}

theorem releaseOf_unused (released : releaseOf a options name shape = .unused routine) :
    a.ownership.elidesDecrement name = false ∧ (a.usage.usage? name).any (·.uses == 0) := by
  unfold releaseOf at released
  dsimp only at released
  repeat' split at released
  all_goals simp_all

theorem earlyStatement_eq (early : a.earlyStatement? name = some after) :
    a.ownership.elidesDecrement name = false ∧ a.ownership.releasePoint? name = some after ∧
      after < a.names.length := by
  unfold earlyStatement? at early
  repeat' split at early
  all_goals try cases early
  next kept =>
    obtain ⟨point,before⟩ := Option.filter_eq_some_iff.mp early
    simp only [Bool.or_eq_true,not_or,Bool.not_eq_true] at kept
    exact ⟨kept.1.2,point,by simpa using before⟩

theorem releaseOf_early (released : releaseOf a options name shape = .early after routine) :
    a.ownership.elidesDecrement name = false ∧ a.ownership.releasePoint? name = some after ∧
      after < a.names.length := by
  apply earlyStatement_eq
  unfold releaseOf at released
  dsimp only at released
  repeat' split at released
  all_goals simp_all

end ReleaseOf

theorem releaseOf_not_donated (a : Analysis) (options : Options) (name : String) (shape : Shape) :
    (releaseOf a options name shape).isDonated = false := by
  unfold releaseOf
  dsimp only
  repeat' split
  all_goals rfl

theorem ofBinding_release (a : Analysis) (options : Options) (b : Binding) (value : Value) :
    (ofBinding a options b value).release =
      if value.declared?.isSome then releaseOf a options b.name (a.shapeOf b.name)
      else .borrowed :=
  rfl

theorem initial_settled (options : Options) (names : a.names = form.names)
    (full : values.length = form.bindings.length) :
    Settled form values false deaths
      ((form.bindings.zip values).map fun (b,value) => BindingPlan.ofBinding a options b value) where
  names := by
    rw [map_map]
    have first : (BindingPlan.name ∘ fun (b,value) => BindingPlan.ofBinding a options b value) =
        Binding.name ∘ Prod.fst := rfl
    rw [first,← map_map,map_fst_zip (Nat.le_of_eq full.symm)]
    rfl
  idents := forall_mem_map.mpr fun _ _ => rfl
  built := by
    intro i p value found there
    rw [getElem?_map] at found
    obtain ⟨⟨b,value'⟩,here,rfl⟩ := Option.map_eq_some_iff.mp found
    obtain ⟨_,there'⟩ := getElem?_zip_eq_some.mp here
    rw [there] at there'
    cases there'
    simp [Builds,ofBinding,Value.declared?]
  absent := by
    intro p member none
    obtain ⟨⟨b,value⟩,_,rfl⟩ := mem_map.mp member
    simp only [ofBinding] at none ⊢
    simp [none]
  timely := by
    intro p member after routine released
    obtain ⟨⟨b,value⟩,_,rfl⟩ := mem_map.mp member
    rw [ofBinding_release] at released
    split at released
    · have before := (releaseOf_early released).2.2
      rwa [names,LetForm.names,length_map] at before
    · cases released
  given := by
    intro p member
    obtain ⟨⟨b,value⟩,_,rfl⟩ := mem_map.mp member
    have kept : (ofBinding a options b value).release.isDonated = false := by
      rw [ofBinding_release]
      split
      · exact releaseOf_not_donated ..
      · rfl
    rw [kept,countP_map,countP_eq_zero.mpr]
    · rfl
    · rintro ⟨b',value'⟩ _
      simp [ofBinding]
  branches := forall_mem_map.mpr fun _ _ => .inl rfl

theorem Settled.usePool (settled : Settled form values false deaths plans) :
    Settled form values true deaths (plans.map usePool) := by
  have cases (p : BindingPlan) : p.usePool = p ∧ ¬ (p.stack ∧ p.reuses = none) ∨
      p.usePool = { p with init := p.init.map pooled } ∧ p.stack ∧ p.reuses = none := by
    unfold BindingPlan.usePool
    by_cases fits : p.stack && p.reuses.isNone <;> simp_all
  apply settled.map
  case init =>
    intro p
    rcases cases p with ⟨same,_⟩ | ⟨pooled,_⟩ <;> simp [*]
  case built =>
    intro p value builds
    unfold Builds at builds ⊢
    rcases cases p with ⟨same,kept⟩ | ⟨pooled,inside,empty⟩
    · rw [same]
      cases empty : p.reuses with
      | some donor => simpa [empty] using builds
      | none =>
        have outside : p.stack = false := by simpa [empty] using kept
        simpa [empty,outside] using builds
    · rw [pooled]
      simp only [empty] at builds ⊢
      simp [builds,inside]
  case branches =>
    intro p
    rcases cases p with ⟨same,_⟩ | ⟨pooled,_⟩ <;> simp [*]
  all_goals
    intro p
    rcases cases p with ⟨same,_⟩ | ⟨pooled,_⟩ <;> simp [*]

theorem Settled.onBranches (settled : Settled form values pooling deaths plans)
    (dead : ∀ x, deaths x = a.liveness.branchDeaths x a.names.length) :
    Settled form values pooling deaths (plans.map (onBranches a)) := by
  have cases (p : BindingPlan) : p.onBranches a = p ∨
      p.onBranches a = { p with branchDeaths := deaths p.name } := by
    unfold BindingPlan.onBranches
    repeat' split
    all_goals simp [dead]
  apply settled.map
  case built =>
    intro p value builds
    unfold Builds at builds ⊢
    rcases cases p with same | listed
    · rwa [same]
    · rwa [listed]
  all_goals
    intro p
    rcases cases p with same | listed <;> simp [*]

theorem ofForm_settled {known : Table Shape} {options : Options} (distinct : form.names.Nodup)
    (full : values.length = form.bindings.length) :
    let a := Analysis.ofForm form known options
    Settled form values options.poolIntegers (a.liveness.branchDeaths · form.bodyIndex)
      (ofForm form values a options) := by
  intro a
  have names : a.names = form.names := Analysis.ofForm_names
  let deaths := (a.liveness.branchDeaths · form.bodyIndex)
  have initial : Settled form values false deaths _ := initial_settled options names full
  have donated : Settled form values false deaths (if options.reuse then
      a.reuse.pairs.foldl donate ((form.bindings.zip values).map fun (b,value) =>
        ofBinding a options b value)
      else (form.bindings.zip values).map fun (b,value) =>
        ofBinding a options b value) := by
    split
    · next on =>
      apply foldl_donate_settled _ initial distinct
      · exact forall_mem_map.mpr fun _ _ _ => rfl
      · simp only [a,Analysis.ofForm,on,if_true]
        exact (Reuse.pairUp_allocs _ _ _ (distinct.sublist (Reuse.sitesOf_names form))).2
    · exact initial
  have dead (x : String) : deaths x = a.liveness.branchDeaths x a.names.length := by
    simp [deaths,names,LetForm.names,LetForm.bodyIndex]
  unfold ofForm
  cases pooling : options.poolIntegers with
  | true => exact donated.usePool.onBranches dead
  | false => exact donated.onBranches dead

end Plans

end StagedLisp
