import StagedLisp.Proofs.Eval.Agreement
import StagedLisp.Proofs.Release.Declared

/-! The bindings of a let form, evaluated without staging and with it. As long as both agree on the
initialisers, both agree on the names in the body; and where the form is compiled, the block
computes what its body does. -/
namespace StagedLisp

open List Code LetForm Eval Value Plans
open Support (Contents)

variable {w e : Value} {i : Nat} {ws : List Value} {covers : Scope → Prop}

def rebind (objects : String → Contents) (made : List (String × Contents)) (x : String) : Contents :=
  (made.lookup x).getD (objects x)

section Rebind

variable {objects : String → Contents} {made : List (String × Contents)} {x y : String} {o : Contents}

theorem lookup_absent (absent : x ∉ made.map Prod.fst) : made.lookup x = none := by
  rw [lookup_eq_none_iff]
  intro entry member
  simpa using fun same : x = entry.1 => absent (same ▸ mem_map_of_mem member)

theorem rebind_other (absent : x ∉ made.map Prod.fst) : rebind objects made x = objects x := by
  rw [rebind,lookup_absent absent]
  rfl

theorem rebind_last (absent : x ∉ made.map Prod.fst) : rebind objects (made ++ [(x,o)]) x = o := by
  simp [rebind,lookup_append,lookup_absent absent]

theorem rebind_skip (other : x ≠ y) : rebind objects (made ++ [(y,o)]) x = rebind objects made x := by
  simp [rebind,lookup_append,lookup_cons,beq_false_of_ne other]

theorem rebind_at (distinct : (made.map Prod.fst).Nodup)
    (found : made[i]? = some (x,o)) : rebind objects made x = o := by
  induction made generalizing i with
  | nil => cases found
  | cons entry made ih =>
    rw [map_cons,nodup_cons] at distinct
    cases i with
    | zero =>
      cases found
      simp [rebind]
    | succ i =>
      have other : (x == entry.1) = false := by
        refine beq_false_of_ne fun same => distinct.1 ?_
        exact same ▸ mem_map_of_mem (mem_of_getElem? (l := made) found)
      have rest := ih distinct.2 found
      rwa [rebind,lookup_cons,other]

end Rebind

/-- Each value stands for the object made of it, in scopes that cover the names before it. -/
def LetForm.Initials (form : LetForm) (names : List String) (objects : String → Contents)
    (refs : String → Prop) (made : List (String × Contents)) (ws : List Value) : Prop :=
  ∀ (i : Nat) b w x o, form.bindings[i]? = some b → ws[i]? = some w → made[i]? = some (x,o) →
    Stands (Covers (form.names.take i ++ names) (rebind objects (made.take i))
      (rerefer refs (form.names.take i) True) [] b.init) w o

variable {names : List String} {o : Contents}

theorem LetForm.Initials.snoc {form : LetForm} {objects : String → Contents}
    {refs : String → Prop} {made : List (String × Contents)} {b : Binding}
    (initials : form.Initials names objects refs made ws)
    (length : ws.length = made.length) (found : form.bindings[made.length]? = some b)
    (last : Stands (Covers (form.names.take made.length ++ names) (rebind objects made)
      (rerefer refs (form.names.take made.length) True) [] b.init) w o)
    (x : String) : form.Initials names objects refs (made ++ [(x,o)]) (ws ++ [w]) := by
  intro i c w' y o' here value object
  rcases Nat.lt_trichotomy i made.length with before | rfl | beyond
  · rw [getElem?_append_left before] at object
    rw [getElem?_append_left (by omega)] at value
    rw [take_append_of_le_length before.le]
    exact initials i c w' y o' here value object
  · rw [← length,getElem?_concat_length] at value
    rw [getElem?_concat_length] at object
    cases found.symm.trans here
    cases value
    cases object
    rwa [take_left]
  · rw [getElem?_eq_none (by simp; omega)] at object
    cases object

/-- Where the names of the expression have the same values, and no others than those given are
variables, evaluation without staging gives data, and evaluation with staging something that stands
for it, which is a fragment only if the expression may give one. -/
def Simulated (most : String → Prop) (names : List String) (e : Value) : Prop :=
  ∀ {objects : String → Contents} {refs : String → Prop} {t t' s s' : Store} {a b : Nat}
    {v w : Value}, (∀ x, refs x → most x) → Tied t b s a names objects refs →
    Evaluated b e t v t' → Evaluated a e s w s' → Agrees (Covers names objects refs (s.levelAt a).releases e) v w ∧
        (w.isCode → Stages refs e)

structure Staged (most : String → Prop) (names : List String) (e : Value) : Prop where
  stageable : Stageable KeepsApart most names e
  simulated : Simulated most names e

structure Bound (form : LetForm) (names : List String) (objects : String → Contents)
    (refs : String → Prop) (b a : Nat) (made : List (String × Contents))
    (done later : List (String × Value)) (staged : Bool) (t s : Store) : Prop where
  listed : made.map Prod.fst = form.names.take made.length
  before : Done form done
  after : Done form later
  count : done.length = made.length
  count' : later.length = made.length
  tied : Tied t b s a (form.names.take made.length ++ names) (rebind objects made)
    (rerefer refs (form.names.take made.length) staged)
  compiled : staged → form.CompiledBefore refs made.length
  initials : form.Initials names objects refs made (later.map Prod.snd)
  quiet : (s.levelAt a).releases = []

namespace Bound

variable {form : LetForm} {names : List String} {objects : String → Contents}
  {refs most : String → Prop} {b a fuel fuel' : Nat} {made : List (String × Contents)}
  {done later : List (String × Value)} {staged : Bool} {t s t' s' : Store} {binding : Binding}

theorem define {v : Value} {o : Contents} {first second : Store} (distinct : form.names.Nodup)
    (found : form.bindings[made.length]? = some binding)
    (listed : made.map Prod.fst = form.names.take made.length)
    (named : later.map Prod.fst = form.names.take made.length)
    (tied : Tied t b s a (form.names.take made.length ++ names) (rebind objects made)
      (rerefer refs (form.names.take made.length) staged))
    (data : v.isData) (tree : v.tree? = some o)
    (stands : Stands covers w o) (defined : t.Defined b (rebound done false binding.name v) first)
    (defined' : s.Defined a (rebound later staged binding.name w) second)
    (now : Standing first b (form.names.take (made.length + 1) ++ names))
    (after : Standing second a (form.names.take (made.length + 1) ++ names)) :
    Tied first b second a (form.names.take (made.length + 1) ++ names) (rebind objects (made ++ [(binding.name,o)]))
      (rerefer refs (form.names.take (made.length + 1)) (staged || w.isCode)) where
  now := now
  later := after
  off := by
    rw [defined.staging]
    exact tied.off
  values x member := by
    have plain := isData_not_code data
    have fresh : binding.name ∉ form.names.take made.length := name_new found distinct
    by_cases same : x = binding.name
    · -- The new name has the value now, and is a variable later if the form is compiled.
      subst same
      refine ⟨v,if staged || w.isCode then .reference binding.name else w,?_,data,?_,?_,?_⟩
      · exact defined.values _ v (by rw [rebound_last,plain]; rfl)
      · rw [rebind_last (listed ▸ fresh)]
        exact tree
      · exact defined'.values _ _ (by rw [rebound_last]; rfl)
      · split
        · next on =>
          refine .inr ⟨rfl,?_⟩
          rw [rerefer,if_pos (name_mem_take found (Nat.lt_succ_self _))]
          exact on
        · next off =>
          rcases stands with known | ⟨c,rfl,_⟩
          · rw [rebind_last (listed ▸ fresh)]
            exact .inl known
          · simp [isCode] at off
    · have old : x ∈ form.names.take made.length ++ names := by
        rcases mem_append.mp member with own | outer
        · rcases (mem_take_succ found).mp own with before | last
          · exact mem_append_left _ before
          · exact absurd last same
        · exact mem_append_right _ outer
      obtain ⟨u,u',was,data',tree',was',means⟩ := tied.values x old
      have still : first.valueAt b x = some u :=
        defined.values x u (by rw [rebound_earlier _ _ _ same,plain]; exact was)
      rw [rebind_skip same]
      by_cases opens : (w.isCode && !staged) ∧ x ∈ later.map Prod.fst
      · refine ⟨u,.reference x,still,data',tree',?_,.inr ⟨rfl,?_⟩⟩
        · exact defined'.values x _ (by rw [rebound_earlier _ _ _ same,if_pos opens]; rfl)
        · have own : x ∈ form.names.take (made.length + 1) := (mem_take_succ found).mpr (.inl (named ▸ opens.2))
          have code := (Bool.and_eq_true_iff.mp opens.1).1
          rw [rerefer,if_pos own,code,Bool.or_true]
      · refine ⟨u,u',still,data',tree',?_,?_⟩
        · exact defined'.values x u' (by rw [rebound_earlier _ _ _ same,if_neg opens]; exact was')
        · refine means.imp_right ?_
          rintro ⟨refers,before⟩
          refine ⟨refers,?_⟩
          have own : x ∈ form.names.take (made.length + 1) ↔ x ∈ form.names.take made.length := by
            rw [mem_take_succ found,or_iff_left same]
          unfold rerefer at before ⊢
          split at before
          · next inner => rw [if_pos (own.mpr inner),before,Bool.true_or]
          · next outer => rwa [if_neg fun inner => outer (own.mp inner)]

variable (bound : Bound form names objects refs b a made done later staged t s) (distinct : form.names.Nodup)

include bound distinct

theorem advance {rest : List Binding} {result result' : List Value × Bool}
    (found : form.bindings[made.length]? = some binding)
    (init : Staged most (form.names.take made.length ++ names) binding.init)
    (within : ∀ x, rerefer refs (form.names.take made.length) staged x → most x)
    (now : Ran (bindEach (eval fuel) b done false (binding :: rest)) t result t')
    (after : Ran (bindEach (eval fuel') a later staged (binding :: rest)) s result' s') :
    ∃ v w o staged' mid mid',
      Bound form names objects refs b a (made ++ [(binding.name,o)]) (done ++ [(binding.name,v)])
        (later ++ [(binding.name,w)]) staged' mid mid' ∧
      Ran (bindEach (eval fuel) b (done ++ [(binding.name,v)]) false rest) mid result t' ∧
      Ran (bindEach (eval fuel') a (later ++ [(binding.name,w)]) staged' rest) mid' result' s' := by
  obtain ⟨v,first,mid,evaluated,keeps,value,defined,standing,going⟩ :=
    bound.before.advance (by rw [bound.count]; exact found) (fun ran => init.stageable.keeps bound.tied.now ran)
      (by rw [bound.count]; exact bound.tied.now) now
  obtain ⟨w,second,mid',evaluated',keeps',value',defined',standing',going'⟩ :=
    bound.after.advance (by rw [bound.count']; exact found) (fun ran => init.stageable.keeps bound.tied.later ran)
      (by rw [bound.count']; exact bound.tied.later) after
  obtain ⟨⟨data,o,tree,stands⟩,stages⟩ := init.simulated within bound.tied evaluated evaluated'
  have plain := isData_not_code data
  rw [plain] at going
  refine ⟨v,w,o,staged || w.isCode,mid,mid',?_,going,going'⟩
  have tied := bound.tied.keeps keeps keeps' bound.tied.now.inside bound.tied.later.inside
  have length : (made ++ [(binding.name,o)]).length = made.length + 1 := by simp
  rw [bound.count] at standing
  rw [bound.count'] at standing'
  have named := bound.after.names
  rw [bound.count'] at named
  refine ⟨?_,bound.before.snoc (by rw [bound.count]; exact found) value,
    bound.after.snoc (by rw [bound.count']; exact found) value',by simp [bound.count],
    by simp [bound.count'],?_,?_,?_,?_⟩
  · rw [length,map_append,bound.listed,take_add_one,name_at found]
    rfl
  · rw [length]
    exact define distinct found bound.listed named tied data tree stands defined defined' standing standing'
  · intro on
    rw [length]
    rcases Bool.or_eq_true_iff.mp on with before | here
    · exact (bound.compiled before).mono (fun _ => id) (Nat.le_succ _)
    · exact .step found bound.compiled (stages here)
  · rw [map_append]
    refine bound.initials.snoc (by simp [bound.count']) found (stands.mono fun scope covers => ?_) _
    exact ⟨fun y member looks refers => covers.known y member looks
      (rerefer_mono (fun _ => id) (fun _ => trivial) refers),by simp [bound.quiet]⟩
  · rw [defined'.releases,keeps'.levels a bound.tied.later.inside]
    exact bound.quiet

theorem run {vs : List Value} {other staged' : Bool} (within : ∀ x, refs x → most x)
    (inits : ∀ (i : Nat) binding, form.bindings[i]? = some binding →
      Staged (rerefer most (form.names.take i) (form.CompiledBefore most i))
        (form.names.take i ++ names) binding.init)
    (now : Ran (bindEach (eval fuel) b done false (form.bindings.drop made.length)) t (vs,other) t')
    (after : Ran (bindEach (eval fuel') a later staged (form.bindings.drop made.length)) s (ws,staged') s') :
    other = false ∧ ∃ made done later, Bound form names objects refs b a made done later staged' t' s' ∧
      made.length = form.bindings.length ∧ ws = later.map Prod.snd := by
  generalize left : form.bindings.drop made.length = rest at now after
  induction rest generalizing t s made done later staged with
  | nil =>
    obtain ⟨same,rfl⟩ := now.pure
    obtain ⟨same',rfl⟩ := after.pure
    cases same
    cases same'
    refine ⟨rfl,made,done,later,bound,?_,rfl⟩
    have most := drop_eq_nil_iff.mp left
    have least : made.length ≤ form.names.length := by
      have lengths := congrArg List.length bound.listed
      rw [length_map,length_take] at lengths
      omega
    rw [form.length_names] at least
    omega
  | cons binding rest ih =>
    obtain ⟨found,next⟩ := binding_next left
    obtain ⟨v,w,o,staged',mid,mid',bound,going,going'⟩ := bound.advance distinct found
      (inits _ binding found) (fun _ => rerefer_mono within fun on =>
        (bound.compiled on).mono within le_rfl) now after
    exact ih bound (by rwa [length_append]) going going'

end Bound

theorem BindingPlan.Builds.value {p : BindingPlan} {pooling : Bool}
    (builds : p.Builds pooling names w) (stands : Stands covers w o) :
    ∃ c, p.init = some c ∧ ∀ scope, covers scope → c.value? scope = some o := by
  obtain ⟨c,lifted⟩ := stands.lifts
  have declared : w.declared? = some c := by
    rw [declared?,if_pos (isStaged_material stands.isStaged),lifted]
    rfl
  have computes (scope : Scope) (covered : covers scope) := stands.lift lifted covered
  unfold Builds at builds
  split at builds
  · obtain ⟨_,own,taken,same,reused,built⟩ := builds
    cases declared.symm.trans same
    refine ⟨taken,built,fun scope covered => ?_⟩
    rw [value?_reusing reused]
    exact computes scope covered
  · rw [declared,Option.map_some] at builds
    refine ⟨_,builds,fun scope covered => ?_⟩
    split
    · rw [value?_pooled]
      exact computes scope covered
    · exact computes scope covered

section Block

variable {form : LetForm} {names : List String} {values : List Value} {pooling : Bool}
  {deaths : String → List (Nat × Nat)} {plans : Plans}
  (settled : plans.Settled form values pooling deaths)

include settled

variable {refs : String → Prop} {made : List (String × Contents)} {objects : String → Contents}
  {outer : Scope} {releases : List BranchRelease}

variable (hygienic : form.Hygienic refs names)

include hygienic

theorem Plans.Settled.declarable : plans.Declarable := by
  have named {p : BindingPlan} (member : p ∈ plans) : p.name ∈ form.names ∧ p.ident = identifier p.name := by
    rw [← settled.names]
    exact ⟨mem_map_of_mem member,settled.idents p member⟩
  have idents : plans.map BindingPlan.ident = form.names.map identifier := by
    rw [← settled.names,map_map]
    exact map_congr_left settled.idents
  refine ⟨idents ▸ hygienic.distinct,?_,?_,?_⟩
  · intro p memberP q memberQ
    rw [(named memberP).2,(named memberQ).2]
    exact hygienic.flags _ (named memberP).1 _ (named memberQ).1
  · intro p member
    rw [(named member).2]
    exact hygienic.words _ (named member).1
  · intro p member
    rw [(named member).2]
    exact identifier_ne_result _

theorem Covers.statement {inner : List BranchRelease} (covers : Covers names objects refs releases e outer)
    (listed : made.map Prod.fst = form.names) (distinct : form.names.Nodup)
    (inside : i ≤ form.bodyIndex)
    (looks : ∀ y, y ∉ form.names.take i → LooksUp (form.statement i) y → LooksUp e y)
    {own : String} (front : own = resultName ∨ form.names[i]?.map identifier = some own)
    (flags : ∀ r ∈ inner, ((own,.unset) :: plans.scopeAfter (made.map Prod.snd) i).lookup
      (flagName r.drop.target) = some .flag) :
    Covers (form.names.take i ++ names) (rebind objects (made.take i))
      (rerefer refs (form.names.take i) True) inner (form.statement i)
      ((own,.unset) :: plans.scopeAfter (made.map Prod.snd) i ++ outer) := by
  have declarable := settled.declarable hygienic
  have full : (made.map Prod.snd).length = plans.length := by
    rw [settled.length,← form.length_names,← listed,length_map,length_map]
  have inside' : i ≤ plans.length := settled.length ▸ inside
  have first : (made.take i).map Prod.fst = form.names.take i := by rw [map_take,listed]
  refine ⟨fun y member looking refers => ?_,fun r member => ?_⟩
  · by_cases mine : y ∈ form.names.take i
    · -- A name of the form itself is found among the variables declared so far.
      obtain ⟨j,below,same⟩ := mem_take_iff_getElem.mp mine
      have there : form.names[j]? = some y := same ▸ getElem?_eq_getElem (by omega)
      obtain ⟨p,here,_,ident⟩ := settled.plan_at there
      obtain ⟨o,entry⟩ : ∃ o, made[j]? = some (y,o) := by
        rw [← listed,getElem?_map] at there
        obtain ⟨⟨_,o⟩,entry,rfl⟩ := Option.map_eq_some_iff.mp there
        exact ⟨o,entry⟩
      have apart : identifier y ≠ own := by
        rcases front with rfl | last
        · exact identifier_ne_result y
        · obtain ⟨x,named,rfl⟩ := Option.map_eq_some_iff.mp last
          obtain ⟨q,there',_,ident'⟩ := settled.plan_at named
          rw [← ident,← ident']
          exact declarable.apart here there' (by omega)
      have object : rebind objects (made.take i) y = o := by
        refine rebind_at (i := j) (first ▸ distinct.sublist (take_sublist _ _)) ?_
        rw [getElem?_take_of_lt (by omega)]
        exact entry
      have declared : (made.map Prod.snd)[j]? = some o := by simp [entry]
      rw [object,cons_append,lookup_cons,beq_false_of_ne apart,lookup_append,← ident,
        scopeAfter_ident declarable full here (by omega) inside' declared]
      rfl
    · -- A name from outside is not hidden by them.
      have outside : y ∈ names := (mem_append.mp member).resolve_left mine
      have refers : refs y := by rwa [rerefer,if_neg mine] at refers
      obtain ⟨idents,flags⟩ := hygienic.apart i inside y outside refers mine looking
      have apart : identifier y ≠ own := by
        rcases front with rfl | last
        · exact identifier_ne_result y
        · obtain ⟨x,named,rfl⟩ := Option.map_eq_some_iff.mp last
          refine idents x (mem_of_getElem? (i := i) ?_)
          rw [getElem?_take_of_lt (Nat.lt_succ_self _)]
          exact named
      have hidden : (plans.scopeAfter (made.map Prod.snd) i).lookup (identifier y) = none := by
        refine scopeAfter_other full inside' fun p taken => ?_
        have named : p.name ∈ form.names.take i := by
          rw [← settled.names,← map_take]
          exact mem_map_of_mem taken
        rw [settled.idents p (take_subset _ _ taken)]
        refine ⟨idents _ ?_,flags _ named⟩
        exact (take_prefix_take_left i.le_succ).subset named
      rw [rebind_other (first ▸ mine),cons_append,lookup_cons,beq_false_of_ne apart,
        lookup_append,hidden,Option.none_or]
      exact covers.known y outside (looks y mine looking) refers
  · rw [lookup_append,flags r member]
    rfl

theorem Plans.Settled.block_value (covers : Covers names objects refs releases e outer)
    (listed : made.map Prod.fst = form.names) (distinct : form.names.Nodup)
    (full : values.length = made.length) (initials : form.Initials names objects refs made values)
    (looks : ∀ i ≤ form.bodyIndex, ∀ y, y ∉ form.names.take i → LooksUp (form.statement i) y → LooksUp e y)
    {o : Contents} {c : Code}
    (body : Stands (Covers (form.names ++ names) (rebind objects made)
      (rerefer refs form.names True) plans.branchReleases form.body) w o)
    (lifted : w.lift = .ok c) : (plans.blockAround .plain c).value? outer = some o := by
  have declarable := settled.declarable hygienic
  have count := settled.length
  have complete : made.length = form.bindings.length := by
    rw [← length_map Prod.fst,listed,form.length_names]
  have full' : (made.map Prod.snd).length = plans.length := by simp [complete,count]
  rw [blockAround_value declarable full']
  · refine body.lift lifted ?_
    have flags : ∀ r ∈ plans.branchReleases,
        ((resultName,.unset) :: plans.scopeAfter (made.map Prod.snd) form.bodyIndex).lookup
          (flagName r.drop.target) = some .flag := by
      intro r member
      obtain ⟨p,planned,released⟩ := mem_flatMap.mp member
      obtain ⟨j,inside,rfl⟩ := getElem_of_mem planned
      obtain ⟨target,dies,_⟩ := BindingPlan.mem_branchReleases released
      have skip : (flagName plans[j].ident == resultName) = false := beq_false_of_ne (flagName_ne_result _)
      rw [target,lookup_cons,skip]
      exact scopeAfter_flag declarable full' (getElem?_eq_getElem inside) (by rw [bodyIndex]; omega) count.ge dies
    have covered := covers.statement settled hygienic listed distinct le_rfl (looks _ le_rfl) (.inl rfl) flags
    have all : form.names.take form.bodyIndex = form.names := take_names le_rfl
    have most : made.take form.bodyIndex = made := take_of_length_le complete.le
    rw [all,form.statement_body,most] at covered
    rwa [count]
  · intro i p object found value
    have inside := lt_of_getElem? found
    have here : form.bindings[i]? = some form.bindings[i] := getElem?_eq_getElem (by omega)
    have given : values[i]? = some values[i] := getElem?_eq_getElem (by omega)
    obtain ⟨x,entry⟩ : ∃ x, made[i]? = some (x,object) := by
      rw [getElem?_map] at value
      obtain ⟨⟨x,_⟩,entry,rfl⟩ := Option.map_eq_some_iff.mp value
      exact ⟨x,entry⟩
    obtain ⟨c,init,computes⟩ := (settled.built i p _ found given).value (initials i _ _ x object here given entry)
    refine ⟨c,init,computes _ ?_⟩
    have statement : form.statement i = form.bindings[i].init := by rw [statement,here]
    have before : i ≤ form.bodyIndex := by
      rw [bodyIndex]
      omega
    obtain ⟨named,ident⟩ := settled.name_at found
    rw [← statement]
    exact covers.statement settled hygienic listed distinct before (looks i before)
      (.inr (by rw [named,ident]; rfl)) (by simp)

end Block

end StagedLisp
