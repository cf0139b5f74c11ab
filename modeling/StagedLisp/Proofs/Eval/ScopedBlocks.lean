import Mathlib.Order.BooleanAlgebra.Set
import StagedLisp.Proofs.Eval.Secures

/-! Let forms keep fragments in scope. While the bindings of a form are evaluated, more and more
variables are declared around its scope. -/
namespace StagedLisp

open List Eval LetForm Code Secures World Standpoint

/-- A level stands where `refs` are among the names that stand for variables, and these are among
the names that are not defined anew. -/
structure Located (w : World) (i : Nat) (p : Standpoint) (refs bound : Set String) : Prop where
  place : w.places[i]? = some p
  known : refs ⊆ p.refs
  within : p.refs ⊆ bound

theorem Located.mono {w w' : World} {i : Nat} {p : Standpoint} {refs bound : Set String}
    (located : Located w i p refs bound) (less : w ≤ w') : Located w' i p refs bound :=
  ⟨less.places i p located.place,located.known,located.within⟩

/-- The value can be used where the variables are declared, and is as foretold. -/
def Suits (steady : Prop) (vars : Set String) (o : Forecast) (w : World) (v : Value) : Prop :=
  v.Fits steady w.slots vars ∧ o.Tells v

def Evaluator.Secure (steady : Prop) (eval : Evaluator) : Prop :=
  ∀ (w : World) (i : Nat) (p : Standpoint) (refs bound : Set String) (e : Value) (o : Forecast),
    Located w i p refs bound → Scoped steady p.lifts refs bound e o →
      Secures steady w w (Suits steady p.vars o) (eval i e)

section Compiling

variable {steady : Prop} {plans : Plans} {kind : LetKind} {outer : Set String}

theorem Plans.Placed.branchReleases (placed : plans.Placed kind outer) {r : BranchRelease}
    (member : r ∈ plans.branchReleases) :
    r.drop.Within (outer ∪ plans.declared plans.length) := by
  obtain ⟨p,listed,member⟩ := mem_flatMap.mp member
  obtain ⟨i,found⟩ := mem_iff_getElem?.mp listed
  have inside := lt_of_getElem? found
  unfold BindingPlan.branchReleases at member
  split at member
  · next routine release =>
    obtain ⟨death,dies,rfl⟩ := mem_map.mp member
    have built : p.init.isSome := by
      rw [Option.isSome_iff_ne_none]
      intro none
      cases release.symm.trans (placed.absent p listed none)
    have declared {x : String} (declares : x ∈ p.declares) :
        x ∈ outer ∪ plans.declared plans.length := .inr ⟨i,inside,p,found,declares⟩
    exact ⟨declared ⟨built,.inl rfl⟩,declared ⟨built,.inr ⟨ne_nil_of_mem dies,rfl⟩⟩⟩
  · cases member

theorem Value.lift_of_declared {v : Value} {c : Code} (declared : v.declared? = some c) : v.lift = .ok c := by
  unfold declared? at declared
  split at declared
  · cases lifted : v.lift with
    | ok d =>
      rw [lifted] at declared
      exact congrArg Except.ok (Option.some.inj declared)
    | error e =>
      rw [lifted] at declared
      cases declared
  · cases declared

variable {eval : Evaluator} (secure : eval.Secure steady) {base w : World} {i : Nat}
  {p : Standpoint} {refs bound : Set String} {form : LetForm} {values : List Value}

include secure

/-- A block uses what is declared outside, if its initial values do, or use earlier variables of
the block, and its body is evaluated where all of them are declared. -/
theorem compileBlock_secure (less : base ≤ w) (new : base.places.length ≤ i)
    (located : Located w i p refs bound) (inner : p.isRoot = false)
    (vars : p.vars = outer ∪ form.idents values form.bindings.length) (distinct : form.names.Nodup)
    (full : values.length = form.bindings.length) (named : form.Named Quiet)
    (apart : form.kind = .plain → ∀ x, ¬ form.HidesLate x)
    (fits : ∀ (j : Nat) v, values[j]? = some v → v.Fits steady w.slots (outer ∪ form.idents values (form.reach j)))
    {o : Forecast} (body : Scoped steady p.lifts refs bound form.body o) :
    Secures steady base w (Suits steady outer .fragment) (compileBlock eval form values i) := by
  refine .get fun s => .level located.place fun l _ => ?_
  have placed : (Plans.ofForm form values (Analysis.ofForm form l.known s.options)
      s.options).Placed form.kind outer := Plans.ofForm_placed distinct full named apart
    fun j v c valued declared => (fits j v valued).lift (Value.lift_of_declared declared)
  have settled : Plans.Settled form values _ _ (Plans.ofForm form values
      (Analysis.ofForm form l.known s.options) s.options) := Plans.ofForm_settled distinct full
  have count := settled.length
  have declared := Plans.idents_declared settled form.bindings.length
  dsimp only
  generalize Plans.ofForm form values (Analysis.ofForm form l.known s.options) s.options = plans
    at placed count declared ⊢
  rw [← count] at declared
  -- From here on all variables of the block are declared around the scope.
  let q : Standpoint := { p with vars := outer ∪ plans.declared plans.length }
  refine .move (q := q) located.place inner ?_ subset_rfl rfl ?_
  · rw [vars,← count]
    exact Set.union_subset_union_right outer declared
  have place : (w.move i q).places[i]? = some q := move_same located.place q
  have beyond : base ≤ w.move i q := le_move less new q
  refine (recordShapes place _).andThen beyond fun _ => ?_
  refine (setReleases place fun r member => placed.branchReleases member).andThen beyond fun _ => ?_
  refine (secure _ i q refs bound _ o ⟨place,located.known,located.within⟩ body).bind beyond
    fun w' v more suits => .result (beyond.trans more) fun c emitted => .pure (beyond.trans more) ?_
  obtain ⟨d,lifted,rfl⟩ := Primitive.map_ok emitted
  exact ⟨placed.blockAround (suits.1.lift lifted),rfl⟩

end Compiling

namespace LetForm

variable {form : LetForm} {values : List Value} {v : Value} {i j : Nat}

theorem idents_mono (form : LetForm) (values : List Value) (fewer : i ≤ j) :
    form.idents values i ⊆ form.idents values j := by
  rintro x ⟨k,below,rest⟩
  exact ⟨k,by omega,rest⟩

theorem idents_snoc (form : LetForm) (v : Value) (inside : i ≤ values.length) :
    form.idents (values ++ [v]) i = form.idents values i := by
  ext x
  constructor
  · rintro ⟨j,below,b,u,bound,valued,rest⟩
    rw [getElem?_append_left (by omega)] at valued
    exact ⟨j,below,b,u,bound,valued,rest⟩
  · rintro ⟨j,below,b,u,bound,valued,rest⟩
    refine ⟨j,below,b,u,bound,?_,rest⟩
    rw [getElem?_append_left (by omega)]
    exact valued

end LetForm

/-- Where the scope of a form stands after its first bindings. Once one of the values is a fragment,
those that can be built are variables. -/
def Standpoint.during (p : Standpoint) (form : LetForm) (values : List Value) (staged : Bool) : Standpoint where
  vars := if staged then p.vars ∪ form.idents values values.length else p.vars
  refs := {x | staged ∧ (∃ (j : Nat) (v : Value), form.names[j]? = some x ∧ values[j]? = some v ∧
      v.isMaterial) ∨ x ∈ p.refs ∧ x ∉ form.names.take values.length}
  lifts := p.lifts

structure BoundSoFar (steady : Prop) (kinds : List SlotKind) (outer : Set String) (form : LetForm)
    (outs : Nat → Forecast) (values : List Value) (staged : Bool) : Prop where
  count : values.length ≤ form.bindings.length
  fits : ∀ (j : Nat) v, values[j]? = some v → v.Fits steady kinds (outer ∪ form.idents values j)
  tells : ∀ (j : Nat) v, values[j]? = some v → (outs j).Tells v
  staged : staged = values.any Value.isCode

namespace Standpoint

variable {p : Standpoint} {form : LetForm} {values : List Value} {staged : Bool} {v : Value}

theorem during_vars : (p.during form values staged).vars ⊆ p.vars ∪ form.idents values values.length := by
  unfold during
  cases staged with
  | true => exact subset_rfl
  | false => exact Set.subset_union_left

theorem during_grows {staged' : Bool} (stays : staged → staged') :
    (p.during form values staged).vars ⊆ (p.during form (values ++ [v]) staged').vars := by
  unfold during
  cases staged' with
  | true =>
    refine during_vars.trans (Set.union_subset_union_right _ ?_)
    rw [← form.idents_snoc v le_rfl]
    exact form.idents_mono _ (by simp)
  | false =>
    cases staged with
    | true => cases stays rfl
    | false => exact subset_rfl

theorem during_start (p : Standpoint) (form : LetForm) :
    (p.during form [] false).vars = p.vars ∧ (p.during form [] false).refs = p.refs := by
  refine ⟨rfl,?_⟩
  ext x
  simp [during]

theorem during_bound {bound : Set String} (within : p.refs ⊆ bound) :
    (p.during form values staged).refs ⊆ bound ∪ form.bound := by
  rintro x (⟨_,j,_,named,_⟩ | ⟨known,_⟩)
  · exact .inr (mem_of_getElem? named)
  · exact .inl (within known)

/-- The next binding is in place. A name that stands for a variable is the new one, or an old one
that is not hidden. -/
theorem during_snoc {b : Binding} (distinct : form.names.Nodup)
    (found : form.bindings[values.length]? = some b) {y : String}
    (member : y ∈ (p.during form (values ++ [v]) staged).refs) :
    y = b.name ∧ (staged && v.isMaterial) ∨ y ∈ (p.during form values staged).refs ∧ y ≠ b.name := by
  have named : form.names[values.length]? = some b.name := name_at found
  rcases member with ⟨staging,j,u,there,valued,material⟩ | ⟨known,hidden⟩
  · by_cases last : j = values.length
    · subst last
      rw [getElem?_concat_length] at valued
      cases valued
      cases named.symm.trans there
      exact .inl ⟨rfl,by rw [staging,material]; rfl⟩
    · have inside := lt_of_getElem? valued
      rw [length_append,length_singleton] at inside
      rw [getElem?_append_left (by omega)] at valued
      refine .inr ⟨.inl ⟨staging,j,u,there,valued,material⟩,?_⟩
      rintro rfl
      have listed := lt_of_getElem? there
      exact last ((getElem?_inj listed distinct).mp (there.trans named.symm))
  · rw [length_append,length_singleton,take_add_one,named] at hidden
    simp only [Option.toList_some,mem_append,mem_singleton,not_or] at hidden
    exact .inr ⟨.inr ⟨known,hidden.1⟩,hidden.2⟩

end Standpoint

namespace BoundSoFar

variable {steady : Prop} {kinds kinds' : List SlotKind} {outer : Set String} {form : LetForm}
  {outs : Nat → Forecast} {values : List Value} {staged : Bool}

variable (sofar : BoundSoFar steady kinds outer form outs values staged)

include sofar

theorem mono (grow : SlotKind.Grow kinds kinds') : BoundSoFar steady kinds' outer form outs values staged :=
  { sofar with fits := fun j v valued => (sofar.fits j v valued).mono grow subset_rfl }

theorem snoc {b : Binding} (found : form.bindings[values.length]? = some b) {v : Value}
    (fits : v.Fits steady kinds (outer ∪ form.idents values values.length))
    (tells : (outs values.length).Tells v) :
    BoundSoFar steady kinds outer form outs (values ++ [v]) (staged || v.isCode) where
  count := by
    have := lt_of_getElem? found
    simp
    omega
  fits j u valued := by
    rcases Nat.lt_trichotomy j values.length with below | rfl | above
    · rw [getElem?_append_left below] at valued
      rw [form.idents_snoc v below.le]
      exact sofar.fits j u valued
    · rw [getElem?_concat_length] at valued
      cases valued
      rw [form.idents_snoc v le_rfl]
      exact fits
    · rw [getElem?_eq_none (by simp; omega)] at valued
      cases valued
  tells j u valued := by
    rcases Nat.lt_trichotomy j values.length with below | rfl | above
    · rw [getElem?_append_left below] at valued
      exact sofar.tells j u valued
    · rw [getElem?_concat_length] at valued
      cases valued
      exact tells
    · rw [getElem?_eq_none (by simp; omega)] at valued
      cases valued
  staged := by rw [sofar.staged,any_append,any_cons,any_nil,Bool.or_false]

theorem referred {p : Standpoint} {refs : Set String} (known : refs ⊆ p.refs) :
    form.referred outs refs values.length ⊆ (p.during form values staged).refs := by
  rintro x (⟨fragment,k,before,named,builds⟩ | ⟨outside,hidden⟩)
  · have built : values[k]? = some values[k] := getElem?_eq_getElem before
    refine .inl ⟨?_,k,_,named,built,(sofar.tells k _ built).material builds⟩
    rw [sofar.staged]
    exact Forecast.any_code sofar.tells fragment
  · exact .inr ⟨known outside,hidden⟩

end BoundSoFar

def materialNames (entries : List (String × Value)) : Set String :=
  {x | ∃ entry ∈ entries, x = entry.1 ∧ entry.2.isMaterial}

theorem materialNames_cons (entry : String × Value) (entries : List (String × Value)) :
    materialNames (entry :: entries) = if entry.2.isMaterial then insert entry.1 (materialNames entries)
      else materialNames entries := by
  ext x
  by_cases material : entry.2.isMaterial <;> simp [materialNames,material]

variable {names : List String} {values : List Value}

theorem mem_materialNames_zip {x : String} :
    x ∈ materialNames (names.zip values) ↔ ∃ (j : Nat) (v : Value), names[j]? = some x ∧
      values[j]? = some v ∧ v.isMaterial := by
  constructor
  · rintro ⟨entry,listed,rfl,material⟩
    obtain ⟨j,found⟩ := mem_iff_getElem?.mp listed
    obtain ⟨named,valued⟩ := getElem?_zip_eq_some.mp found
    exact ⟨j,entry.2,named,valued,material⟩
  · rintro ⟨j,v,named,valued,material⟩
    exact ⟨(x,v),mem_of_getElem? (getElem?_zip_eq_some.mpr ⟨named,valued⟩),rfl,material⟩

theorem zip_snoc {x : String} {v : Value} (named : names[values.length]? = some x) :
    names.zip values ++ [(x,v)] = names.zip (values ++ [v]) := by
  induction values generalizing names with
  | nil =>
    cases names with
    | nil => cases named
    | cons name names =>
      cases named
      simp
  | cons value values ih =>
    cases names with
    | nil => cases named
    | cons name names => exact congrArg _ (ih named)

section Binding

variable {steady : Prop} {base w : World} {i : Nat} {p : Standpoint}

section

variable (less : base ≤ w) (new : base.places.length ≤ i)

include less new

theorem refer_secure {entries : List (String × Value)} (known : w.places[i]? = some p) (inner : p.isRoot = false)
    (declared : ∀ entry ∈ entries, entry.2.isMaterial → identifier entry.1 ∈ p.vars) :
    Secures steady base w (fun w' _ => SlotKind.Grow w.slots w'.slots ∧
      w'.places[i]? = some { p with refs := p.refs ∪ materialNames entries })
      (refer i entries) := by
  induction entries generalizing w p with
  | nil =>
    refine .pure less ⟨.refl _,?_⟩
    simpa [materialNames] using known
  | cons entry entries ih =>
    obtain ⟨first,rest⟩ := forall_mem_cons.mp declared
    rw [refer_cons,materialNames_cons]
    split
    · next material =>
      let q : Standpoint := { p with refs := insert entry.1 p.refs }
      have within : (var (identifier entry.1)).Within p.vars := by
        rw [Code.Within]
        exact first material
      have beyond : base ≤ (w.hold ⟨p.vars,True⟩).move i q := le_move (less.trans (w.le_hold _)) new q
      have bound : Secures steady base w (fun w' _ => w' = (w.hold ⟨p.vars,True⟩).move i q)
          (Eval.reference entry.1 >>= Eval.define i entry.1) := by
        refine (Secures.reference entry.1).bind less fun w' v _ found => ?_
        obtain ⟨rfl,rfl⟩ := found
        refine .define known (.inl inner) within (fun _ => rfl) subset_rfl subset_rfl rfl
          (fun y member => ?_) beyond
        by_cases same : y = entry.1
        · exact .inl ⟨same,trivial⟩
        · exact .inr ⟨(Set.mem_insert_iff.mp member).resolve_left same,same⟩
      refine bound.bind le_rfl fun w' _ _ same => ?_
      subst same
      have place := move_same (w := w.hold ⟨p.vars,True⟩) known q
      refine (ih beyond place inner rest).mono le_rfl fun w' _ _ done => ?_
      refine ⟨(w.le_hold _).slots.trans done.1,?_⟩
      rw [Set.union_insert,← Set.insert_union]
      exact done.2
    · rw [pure_bind]
      exact ih less known inner rest

variable {form : LetForm} {values : List Value}

variable {staged : Bool}

theorem restage_secure (place : w.places[i]? = some (p.during form values staged)) (v : Value) :
    Secures steady base w (fun w' _ => SlotKind.Grow w.slots w'.slots ∧
      w'.places[i]? = some (p.during form values (staged || v.isCode)))
      (if v.isCode && !staged then refer i (form.names.zip values) else pure ()) := by
  split
  · next first =>
    obtain ⟨code,unstaged⟩ := Bool.and_eq_true_iff.mp first
    rw [Bool.not_eq_true'] at unstaged
    subst unstaged
    let q : Standpoint :=
      { p.during form values false with vars := (p.during form values true).vars }
    refine .move (q := q) place rfl Set.subset_union_left subset_rfl rfl ?_
    refine (refer_secure (le_move less new q) new (move_same place q) rfl ?_).mono
      le_rfl fun w' _ _ done => ⟨done.1,done.2.trans (congrArg some ?_)⟩
    · intro entry listed material
      obtain ⟨j,found⟩ := mem_iff_getElem?.mp listed
      obtain ⟨named,valued⟩ := getElem?_zip_eq_some.mp found
      rw [names,getElem?_map] at named
      obtain ⟨b,bound,same⟩ := Option.map_eq_some_iff.mp named
      exact .inr ⟨j,lt_of_getElem? valued,b,entry.2,bound,valued,material,congrArg _ same.symm⟩
    · have refs : q.refs ∪ materialNames (form.names.zip values) = (p.during form values true).refs := by
        ext x
        simp only [q,Set.mem_union,mem_materialNames_zip]
        simp [Standpoint.during,or_comm]
      rw [refs,code]
      rfl
  · next other =>
    refine .pure less ⟨.refl _,place.trans ?_⟩
    cases staged with
    | true => rfl
    | false =>
      rw [Bool.not_false,Bool.and_true,Bool.not_eq_true] at other
      rw [other]
      rfl

theorem bindNext_secure {b : Binding} {v : Value} (distinct : form.names.Nodup)
    (found : form.bindings[values.length]? = some b)
    (place : w.places[i]? = some (p.during form values staged))
    (fits : v.Fits steady w.slots (p.during form (values ++ [v]) staged).vars) :
    Secures steady base w (fun w' _ => SlotKind.Grow w.slots w'.slots ∧
      w'.places[i]? = some (p.during form (values ++ [v]) staged))
      ((if staged && v.isMaterial then reference b.name else pure v) >>= define i b.name) := by
  have grows : (p.during form values staged).vars ⊆ (p.during form (values ++ [v]) staged).vars := during_grows id
  have defined {k : SlotKind} {u : Value} (inside : k.vars = (p.during form (values ++ [v]) staged).vars)
      (fits : u.Fits steady w.slots k.vars) (code : k.code → u.isCode)
      (builds : (staged && v.isMaterial) → k.code) :
      Secures steady base w (fun w' _ => SlotKind.Grow w.slots w'.slots ∧
        w'.places[i]? = some (p.during form (values ++ [v]) staged)) (define i b.name u) := by
    refine (define (q := p.during form (values ++ [v]) staged) place (.inl rfl) fits code
      (inside ▸ subset_rfl) grows rfl (fun y member => ?_)
      (le_move (less.trans (w.le_hold k)) new _)).mono le_rfl fun w' _ _ same => ?_
    · exact (during_snoc distinct found member).imp_left fun new => ⟨new.1,builds new.2⟩
    · subst same
      exact ⟨(w.le_hold k).slots,move_same (w := w.hold k) place _⟩
  split
  · next built =>
    obtain ⟨staging,material⟩ := Bool.and_eq_true_iff.mp built
    refine (Secures.reference b.name).bind less fun w' u _ made => ?_
    obtain ⟨rfl,rfl⟩ := made
    refine defined (k := ⟨_,True⟩) rfl ?_ (fun _ => rfl) fun _ => trivial
    show (Code.var (Code.identifier b.name)).Within _
    rw [Code.Within,during,if_pos staging]
    refine .inr ⟨values.length,by simp,b,v,found,getElem?_concat_length,material,rfl⟩
  · next other =>
    rw [pure_bind]
    exact defined (k := ⟨_,False⟩) rfl fits False.elim fun built => other built

end

variable {outs : Nat → Forecast} {refs bound : Set String} {eval : Evaluator}

theorem bindEach_secure (secure : eval.Secure steady) (new : base.places.length ≤ i)
    (distinct : form.names.Nodup) (known : refs ⊆ p.refs) (within : p.refs ⊆ bound)
    (inits : ∀ (j : Nat) b, form.bindings[j]? = some b →
      Scoped steady p.lifts (form.referred outs refs j) (bound ∪ form.bound) b.init (outs j))
    {rest : List Binding} (left : form.bindings.drop values.length = rest) (less : base ≤ w)
    (place : w.places[i]? = some (p.during form values staged))
    (sofar : BoundSoFar steady w.slots p.vars form outs values staged) :
    Secures steady base w (fun w' result =>
      w'.places[i]? = some (p.during form result.1 result.2) ∧
      result.1.length = form.bindings.length ∧
      BoundSoFar steady w'.slots p.vars form outs result.1 result.2)
      (Eval.bindEach eval i (form.names.zip values) staged rest) := by
  induction rest generalizing w values staged with
  | nil =>
    have count := sofar.count
    have all := drop_eq_nil_iff.mp left
    have listed : (form.names.zip values).map Prod.snd = values := map_snd_zip (form.length_names ▸ count)
    rw [bindEach,listed]
    exact .pure less ⟨place,count.antisymm all,sofar⟩
  | cons b rest ih =>
    obtain ⟨found,next⟩ := binding_next left
    rw [bindEach_step]
    refine (secure w i _ _ _ _ _ ⟨place,sofar.referred known,during_bound within⟩
      (inits _ b found)).bind less fun w₁ v more suits => ?_
    have less₁ := less.trans more
    refine (restage_secure less₁ new (more.places i _ place) v).bind le_rfl fun w₂ _ less₂ restaged => ?_
    obtain ⟨grow,place₂⟩ := restaged
    have fits := suits.1.mono grow subset_rfl
    rw [← bind_assoc]
    refine (bindNext_secure less₂ new distinct found place₂
      (fits.mono (.refl _) (during_grows fun staged => by rw [staged]; rfl))).bind le_rfl
      fun w₃ _ less₃ bound => ?_
    obtain ⟨grow',place₃⟩ := bound
    have sofar := (sofar.mono (more.slots.trans grow)).snoc found (fits.mono (.refl _) during_vars) suits.2
    rw [zip_snoc (name_at found)]
    exact ih (by rwa [length_append]) less₃ place₃ (sofar.mono grow')

end Binding

section Forms

variable {steady : Prop} {eval : Evaluator} (secure : eval.Secure steady) {w : World} {i : Nat}
  {p : Standpoint} {refs bound : Set String} {form : LetForm} {outs : Nat → Forecast} {o : Forecast}
  (located : Located w i p refs bound)

include secure located

theorem plainLet_secure (plain : form.kind = .plain) (distinct : form.names.Nodup)
    (named : form.Named Quiet) (apart : ∀ x, ¬ form.HidesLate x)
    (inits : ∀ (j : Nat) b, form.bindings[j]? = some b →
      Scoped steady p.lifts (form.referred outs refs j) (bound ∪ form.bound) b.init (outs j))
    (body : Scoped steady p.lifts (form.referred outs refs form.bindings.length) (bound ∪ form.bound) form.body o) :
    Secures steady w w (Suits steady p.vars (form.forecast outs o)) (plainLet eval form i false) := by
  refine .level located.place fun l fits => ?_
  obtain ⟨_,start⟩ := p.during_start form
  refine .scope (q := p.during form [] false) located.place (fun stages => ⟨id,stages⟩) fits.env
    (start ▸ fits.refers) ?_
  have sofar : BoundSoFar steady (w.enter (p.during form [] false)).slots p.vars form outs []
      false := ⟨Nat.zero_le _,nofun,nofun,rfl⟩
  have binds := bindEach_secure secure le_rfl distinct located.known
    located.within inits rfl (w.le_enter _) (w.enter_last _) sofar
  rw [zip_nil_right] at binds
  refine binds.bind le_rfl fun w₂ result less done => ?_
  obtain ⟨values,staged⟩ := result
  obtain ⟨place,full,sofar⟩ := done
  have located : Located w₂ w.places.length (p.during form values staged)
      (form.referred outs refs form.bindings.length) (bound ∪ form.bound) :=
    ⟨place,full ▸ sofar.referred located.known,during_bound located.within⟩
  dsimp only
  have mode := sofar.staged
  cases staged with
  | false =>
    exact (secure _ _ _ _ _ _ _ located body).mono less fun _ _ _ suits =>
      ⟨suits.1,forecast_interpreted full sofar.tells mode.symm suits.2⟩
  | true =>
    have vars : (p.during form values true).vars = p.vars ∪ form.idents values form.bindings.length := by
      rw [← full]
      rfl
    refine (compileBlock_secure secure less le_rfl located rfl vars distinct full named
      (fun _ => apart) (fun j v valued => ?_) body).mono le_rfl fun _ _ _ suits =>
        ⟨suits.1,forecast_compiled full sofar.tells mode.symm suits.2⟩
    rw [reach,plain]
    exact sofar.fits j v valued

theorem each_secure {es : List Value} (parts : ∀ (j : Nat) e, es[j]? = some e →
      Scoped steady p.lifts refs bound e (outs j)) :
    Secures steady w w (fun w' vs => vs.length = es.length ∧
      ∀ (j : Nat) v, vs[j]? = some v → Suits steady p.vars (outs j) w' v) (eval.each i es) := by
  induction es generalizing w outs with
  | nil => exact .pure le_rfl ⟨rfl,nofun⟩
  | cons e es ih =>
    refine (secure _ _ _ _ _ _ _ located (parts 0 e rfl)).bind le_rfl fun w₁ v less first => ?_
    refine (ih (located.mono less) fun j e found => parts (j + 1) e found).bind less
      fun w₂ vs less' rest => .pure (less.trans less') ?_
    refine ⟨congrArg (· + 1) rest.1,fun j u valued => ?_⟩
    cases j with
    | zero =>
      cases valued
      exact ⟨first.1.mono less'.slots subset_rfl,first.2⟩
    | succ j => exact rest.2 j u valued

theorem inits_secure (parts : ∀ (j : Nat) b, form.bindings[j]? = some b →
      Scoped steady p.lifts refs bound b.init (outs j)) :
    Secures steady w w (fun w' vs => vs.length = form.bindings.length ∧
      ∀ (j : Nat) v, vs[j]? = some v → Suits steady p.vars (outs j) w' v)
      (eval.each i (form.bindings.map Binding.init)) := by
  refine (each_secure secure located fun j e found => ?_).mono le_rfl fun _ _ _ evaluated =>
    ⟨evaluated.1.trans (length_map _),evaluated.2⟩
  rw [getElem?_map] at found
  obtain ⟨b,there,rfl⟩ := Option.map_eq_some_iff.mp found
  exact parts j b there

variable {used vars : Set String}

omit secure located in
theorem assignEach_secure {env : Env} {names : List String} {values : List Value}
    (owns : ∀ x ∈ names, env.Owns w.slots vars x)
    (fits : ∀ v ∈ values, v.Fits steady w.slots vars) :
    Secures steady w w (fun w' _ => w' = w) (assignEach env (names.zip values)) := by
  induction names generalizing values with
  | nil => exact .pure le_rfl rfl
  | cons name names ih =>
    cases values with
    | nil => exact .pure le_rfl rfl
    | cons v values =>
      obtain ⟨⟨slot,named,known⟩,others⟩ := forall_mem_cons.mp owns
      obtain ⟨first,rest⟩ := forall_mem_cons.mp fits
      rw [zip_cons_cons,assignEach_cons]
      refine (assign fun j k there kind => ?_).andThen le_rfl fun _ => ih others rest
      cases named.symm.trans there
      cases known.symm.trans kind
      exact ⟨first,False.elim⟩

omit secure located in
theorem referEach_secure {env : Env} {names : Set String} {bindings : List Binding}
    (declared : ∀ b ∈ bindings, identifier b.name ∈ vars) (fits : env.Fits w.slots vars)
    (refers : env.Refers w.slots names) :
    Secures steady w w (fun w' grown => w'.places = w.places ∧ grown.Fits w'.slots vars ∧
      grown.Refers w'.slots (names ∪ {x | x ∈ bindings.map Binding.name}))
      (referEach env bindings) := by
  induction bindings generalizing w env names with
  | nil => exact .pure le_rfl ⟨rfl,fits,refers.mono (.refl _) (by simp)⟩
  | cons b bindings ih =>
    obtain ⟨first,rest⟩ := forall_mem_cons.mp declared
    rw [referEach]
    refine (Secures.reference b.name).bind le_rfl fun _ _ _ made => ?_
    obtain ⟨rfl,rfl⟩ := made
    have within : (Code.var (Code.identifier b.name)).Within vars := by
      rw [Code.Within]
      exact first
    refine (extend within fits refers).bind le_rfl fun w₁ grown less extended => ?_
    obtain ⟨places,fits,refers⟩ := extended
    refine (ih rest fits refers).mono less fun w₂ all _ done => ⟨done.1.trans places,done.2.1,?_⟩
    refine done.2.2.mono (.refl _) ?_
    rintro x (old | new)
    · exact .inl (.inr old)
    · exact (mem_cons.mp new).imp .inl id

theorem compileRecursive_secure (recursive : form.kind = .recursive) (distinct : form.names.Nodup)
    (named : form.Named Quiet)
    (inits : ∀ (j : Nat) b, form.bindings[j]? = some b →
      Scoped steady p.lifts (refs ∪ form.bound) (bound ∪ form.bound) b.init (outs j))
    (built : ∀ j < form.bindings.length, (outs j).isVariable) (fewer : used ⊆ refs ∪ form.bound)
    (body : Scoped steady p.lifts used (bound ∪ form.bound) form.body o) :
    Secures steady w w (Suits steady p.vars .fragment) (compileRecursive eval form i) := by
  refine .level located.place fun l fits => ?_
  let vars : Set String := p.vars ∪ {x | ∃ b ∈ form.bindings, x = identifier b.name}
  let q : Standpoint := { vars := vars, refs := p.refs ∪ form.bound, lifts := p.lifts }
  refine (referEach_secure (fun b listed => .inr ⟨b,listed,rfl⟩)
    (fits.env.mono (.refl _) (Set.subset_union_left : p.vars ⊆ vars)) fits.refers).bind le_rfl
    fun w₁ env less referred => ?_
  obtain ⟨places,around,refers⟩ := referred
  refine .scope (q := q) (less.places i p located.place) (fun stages => ⟨id,stages⟩) around refers ?_
  have less := less.trans (w₁.le_enter q)
  have inside : Located (w₁.enter q) w₁.places.length q (refs ∪ form.bound) (bound ∪ form.bound) :=
    ⟨w₁.enter_last q,Set.union_subset_union_left _ located.known,Set.union_subset_union_left _ located.within⟩
  refine (inits_secure secure inside inits).bind less fun w₂ values less' evaluated => ?_
  obtain ⟨full,suits⟩ := evaluated
  -- All values can be built, so all names are variables of the block.
  have all : vars = p.vars ∪ form.idents values form.bindings.length := by
    refine congrArg (p.vars ∪ ·) (Set.ext fun x => ⟨?_,?_⟩)
    · rintro ⟨b,listed,rfl⟩
      obtain ⟨j,found⟩ := mem_iff_getElem?.mp listed
      have below := lt_of_getElem? found
      have valued : values[j]? = some values[j] := getElem?_eq_getElem (by omega)
      exact ⟨j,below,b,_,found,valued,(suits j _ valued).2.material (built j below),rfl⟩
    · rintro ⟨j,_,b,_,found,_,_,rfl⟩
      exact ⟨b,mem_of_getElem? found,rfl⟩
  have located : Located w₂ w₁.places.length q used (bound ∪ form.bound) :=
    ⟨less'.places _ _ (w₁.enter_last q),fewer.trans inside.known,inside.within⟩
  refine compileBlock_secure secure (less.trans less') (places ▸ le_rfl) located rfl all
    distinct full named (fun plain => ?_) (fun j v valued => ?_) body
  · cases plain.symm.trans recursive
  · rw [reach,recursive]
    exact all ▸ (suits j v valued).1

/-- A recursive form whose initialisers see empty slots first. It is compiled, or its body is
evaluated once the slots are written to. -/
theorem recursiveLet_secure (inits : ∀ (j : Nat) b, form.bindings[j]? = some b →
      Scoped steady p.lifts (refs \ form.bound) (bound ∪ form.bound) b.init (outs j))
    (body : Scoped steady p.lifts used (bound ∪ form.bound) form.body o)
    (interpreted : ∀ values : List Value, values.length = form.bindings.length →
      (∀ (j : Nat) v, values[j]? = some v → (outs j).Tells v) → values.any Value.isCode = false →
        used ⊆ refs \ form.bound)
    (compiled : ∀ (w' : World) (values : List Value), w ≤ w' → values.length = form.bindings.length →
      (∀ (j : Nat) v, values[j]? = some v → (outs j).Tells v) → values.any Value.isCode →
        Secures steady w' w' (Suits steady p.vars .fragment) (Eval.compileRecursive eval form i)) :
    Secures steady w w (Suits steady p.vars (form.forecast outs o)) (Eval.recursiveLet eval form i) := by
  refine .level located.place fun l fits => ?_
  have empty : ∀ entry ∈ form.names.map fun name => (name,Value.nil),
      entry.2.Fits steady w.slots p.vars := by simp [Value.Fits]
  have apart : ∀ entry ∈ form.names.map fun name => (name,Value.nil), entry.1 ∉ p.refs \ form.bound := by
    intro entry member inside
    obtain ⟨name,listed,rfl⟩ := mem_map.mp member
    exact inside.2 listed
  refine (extendAll empty fits.env (fits.refers.mono (.refl _) Set.sdiff_subset)
    apart).bind le_rfl fun w₁ env less extended => ?_
  obtain ⟨places,around,refers,owns⟩ := extended
  let q : Standpoint := { vars := p.vars, refs := p.refs \ form.bound, lifts := p.lifts }
  refine .scope (q := q) (less.places i p located.place) (fun stages => ⟨id,stages⟩) around refers ?_
  have less := less.trans (w₁.le_enter q)
  have inside : Located (w₁.enter q) w₁.places.length q (refs \ form.bound) (bound ∪ form.bound) :=
    ⟨w₁.enter_last q,Set.sdiff_subset_sdiff_left located.known,
      Set.sdiff_subset.trans (located.within.trans Set.subset_union_left)⟩
  refine (inits_secure secure inside inits).bind less fun w₂ values less' evaluated => ?_
  obtain ⟨full,suits⟩ := evaluated
  have tells (j : Nat) (v : Value) (valued : values[j]? = some v) := (suits j v valued).2
  have beyond := less.trans less'
  split
  · next code =>
    exact (compiled w₂ values beyond full tells code).mono beyond fun _ _ _ suits =>
      ⟨suits.1,forecast_compiled full tells code suits.2⟩
  · next plain =>
    have plain := Bool.not_eq_true _ ▸ plain
    have owned : ∀ x ∈ form.names, env.Owns w₂.slots p.vars x := by
      intro x listed
      obtain ⟨slot,named,known⟩ := owns x (by simpa using listed)
      exact ⟨slot,named,less'.slots _ _ known⟩
    refine (assignEach_secure owned fun v member => ?_).andThen beyond fun _ => ?_
    · obtain ⟨j,valued⟩ := mem_iff_getElem?.mp member
      exact (suits j v valued).1
    · have inside := inside.mono less'
      refine (secure _ _ _ _ _ _ _ ⟨inside.place,?_,inside.within⟩ body).mono beyond
        fun _ _ _ suits => ⟨suits.1,forecast_interpreted full tells plain suits.2⟩
      exact (interpreted values full tells plain).trans inside.known

end Forms

end StagedLisp
