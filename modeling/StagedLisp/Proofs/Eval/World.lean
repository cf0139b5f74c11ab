import StagedLisp.Proofs.Form.Scoped

/-! What slots and levels may hold, so that fragments stay in scope. A world says for every slot
which variables of the generated program its value may use, and for every level which ones are
declared around it. A computation secures a world if the store fits it, or a larger one, in the
end. -/
namespace StagedLisp

open List Env

/-- What a slot may hold: the variables that its value may use, and whether it is a fragment for
good. -/
structure SlotKind where
  vars : Set String
  code : Prop

/-- Where a level stands: the variables that are declared around it, the names that stand for such
variables, and whether lifting is sure to make fragments. -/
structure Standpoint where
  vars : Set String
  refs : Set String
  lifts : Prop
  isRoot : Bool := false

def Standpoint.root : Standpoint := ⟨∅,∅,True,true⟩

def SlotKind.Grow (kinds kinds' : List SlotKind) : Prop :=
  ∀ (i : Nat) k, kinds[i]? = some k → kinds'[i]? = some k

theorem SlotKind.Grow.refl (kinds : List SlotKind) : SlotKind.Grow kinds kinds :=
  fun _ _ known => known

variable {args : List Value} {kinds : List SlotKind}

theorem SlotKind.Grow.trans {kinds' kinds'' : List SlotKind} (first : Grow kinds kinds')
    (second : Grow kinds' kinds'') : Grow kinds kinds'' :=
  fun i k known => second i k (first i k known)

theorem SlotKind.grow_concat (kinds : List SlotKind) (k : SlotKind) : Grow kinds (kinds ++ [k]) := by
  intro i other known
  rw [getElem?_append_left (lt_of_getElem? known)]
  exact known

structure World where
  slots : List SlotKind
  places : List Standpoint

namespace World

structure Extends (w w' : World) : Prop where
  slots : SlotKind.Grow w.slots w'.slots
  places : ∀ (i : Nat) p, w.places[i]? = some p → w'.places[i]? = some p

instance : Preorder World where
  le := Extends
  le_refl _ := ⟨.refl _,fun _ _ known => known⟩
  le_trans _ _ _ first second :=
    ⟨first.slots.trans second.slots,fun i p known => second.places i p (first.places i p known)⟩

variable {w base : World} {k : SlotKind} {p : Standpoint} {i : Nat}

def hold (w : World) (k : SlotKind) : World := { w with slots := w.slots ++ [k] }

def enter (w : World) (p : Standpoint) : World := { w with places := w.places ++ [p] }

def move (w : World) (i : Nat) (p : Standpoint) : World := { w with places := w.places.set i p }

theorem le_hold (w : World) (k : SlotKind) : w ≤ w.hold k where
  slots := SlotKind.grow_concat w.slots k
  places _ _ known := known

theorem le_enter (w : World) (p : Standpoint) : w ≤ w.enter p where
  slots := .refl _
  places i _ known := by
    rw [enter,getElem?_append_left (lt_of_getElem? known)]
    exact known

theorem le_move (less : base ≤ w) (new : base.places.length ≤ i) (p : Standpoint) : base ≤ w.move i p where
  slots := less.slots
  places j q known := by
    have below := lt_of_getElem? known
    rw [move,getElem?_set_ne (by omega)]
    exact less.places j q known

theorem enter_last (w : World) (p : Standpoint) : (w.enter p).places[w.places.length]? = some p :=
  getElem?_concat_length

theorem move_same (known : w.places[i]? = some p) (q : Standpoint) : (w.move i q).places[i]? = some q := by
  rw [move,getElem?_set_self (lt_of_getElem? known)]

theorem move_self (known : w.places[i]? = some p) : w.move i p = w := by
  obtain ⟨inside,same⟩ := List.getElem?_eq_some_iff.mp known
  rw [move,← same,set_getElem_self]

end World

/-- Every slot of the environment holds what may be used where the given variables are declared. -/
def Env.Fits (kinds : List SlotKind) (vars : Set String) (env : Env) : Prop :=
  ∀ entry ∈ env, ∃ k, kinds[entry.2]? = some k ∧ k.vars ⊆ vars

def Env.Refers (kinds : List SlotKind) (refs : Set String) (env : Env) : Prop :=
  ∀ x ∈ refs, ∃ i k, env.slot? x = some i ∧ kinds[i]? = some k ∧ k.code

/-- A procedure may be called, and lifted, where the given variables are declared. -/
structure ProcedureFits (steady : Prop) (kinds : List SlotKind) (vars : Set String)
    (params : List String) (body : Value) (env : Env) : Prop where
  around : env.Fits kinds vars
  quiet : ∀ x ∈ params ++ Value.capturedNames params body, Code.Quiet x
  body : ∃ refs bound o, Scoped steady steady refs bound body o ∧ env.Refers kinds refs ∧
    refs ⊆ bound ∧ ∀ x ∈ params, x ∉ refs

/-- The value may be used where the given variables are declared. -/
def Value.Fits (steady : Prop) (kinds : List SlotKind) (vars : Set String) : Value → Prop
  | pair _ head tail => head.Fits steady kinds vars ∧ tail.Fits steady kinds vars
  | closure _ params body env => ProcedureFits steady kinds vars params body env
  | code c => c.Within vars
  | _ => True

/-- A level with native rules that stands at a place. -/
structure Level.Fits (steady : Prop) (w : World) (p : Standpoint) (l : Level) : Prop where
  native : ∀ rule, l.handlers.get rule = .native
  staging : p.lifts → l.staging = true
  steady : steady → p.lifts
  env : l.env.Fits w.slots p.vars
  refers : l.env.Refers w.slots p.refs
  drops : ∀ r ∈ l.releases, r.drop.Within p.vars
  parent : ∀ a : Nat, l.parent = some a → w.places[a]? = some .root

structure Slots.Fit (steady : Prop) (kinds : List SlotKind) (slots : Slots) : Prop where
  count : slots.size = kinds.length
  each : ∀ (i : Nat) k v, kinds[i]? = some k → slots[i]? = some v → v.Fits steady kinds k.vars ∧ (k.code → v.isCode)

structure Store.Fits (steady : Prop) (w : World) (s : Store) : Prop where
  slots : Slots.Fit steady w.slots s.slots
  count : s.levels.size = w.places.length
  levels : ∀ (i : Nat) p, w.places[i]? = some p → (s.levelAt i).Fits steady w p

section Mono

variable {steady : Prop} {kinds kinds' : List SlotKind} {vars vars' refs refs' : Set String}
  (less : SlotKind.Grow kinds kinds')

include less

theorem Env.Fits.mono {env : Env} (fits : env.Fits kinds vars) (more : vars ⊆ vars') : env.Fits kinds' vars' := by
  intro entry member
  obtain ⟨k,known,inside⟩ := fits entry member
  exact ⟨k,less _ _ known,inside.trans more⟩

theorem Env.Refers.mono {env : Env} (refers : env.Refers kinds refs) (fewer : refs' ⊆ refs) :
    env.Refers kinds' refs' := by
  intro x member
  obtain ⟨i,k,named,known,code⟩ := refers x (fewer member)
  exact ⟨i,k,named,less _ _ known,code⟩

theorem Value.Fits.mono {v : Value} (fits : v.Fits steady kinds vars) (more : vars ⊆ vars') :
    v.Fits steady kinds' vars' := by
  induction v with
  | pair cell head tail ihHead ihTail => exact ⟨ihHead fits.1,ihTail fits.2⟩
  | closure id params body env =>
    obtain ⟨refs,bound,o,part,refers,rest⟩ := fits.body
    exact ⟨fits.around.mono less more,fits.quiet,refs,bound,o,part,refers.mono less subset_rfl,rest⟩
  | code c => exact Code.Within.mono more c fits
  | _ => trivial

end Mono

section Values

variable {steady : Prop} {kinds : List SlotKind} {vars : Set String} {v : Value}

theorem Value.fits_datum (datum : v.isDatum) : v.Fits steady kinds vars := by
  induction v with
  | pair cell head tail ihHead ihTail =>
    obtain ⟨first,second⟩ := Bool.and_eq_true_iff.mp datum
    exact ⟨ihHead first,ihTail second⟩
  | int | sym | nil => trivial
  | _ => cases datum

theorem Value.Fits.lift (fits : v.Fits steady kinds vars) {c : Code} (lifted : v.lift = .ok c) : c.Within vars := by
  induction v generalizing c with
  | int =>
    cases lifted
    simp [Code.Storage.Within]
  | nil =>
    cases lifted
    simp
  | code d =>
    cases lifted
    exact fits
  | closure id params body env =>
    cases lifted
    rw [Code.Within]
    exact fits.quiet
  | pair cell head tail ihHead ihTail =>
    obtain ⟨a,b,first,second,rfl⟩ := lift_pair lifted
    rw [Code.Within]
    exact ⟨by simp,ihHead fits.1 first,ihTail fits.2 second⟩
  | _ => cases lifted

end Values

theorem Primitive.mem_liftAll {codes : List Code} {c : Code} (lifted : liftAll args = .ok codes)
    (member : c ∈ codes) : ∃ a ∈ args, a.lift = .ok c := by
  induction args generalizing codes with
  | nil =>
    cases lifted
    cases member
  | cons a args ih =>
    rw [liftAll] at lifted
    split at lifted
    · cases lifted
    · next first =>
      split at lifted
      · cases lifted
      · next rest =>
        cases lifted
        rcases mem_cons.mp member with rfl | later
        · exact ⟨a,mem_cons_self,first⟩
        · obtain ⟨b,listed,lifted⟩ := ih rest later
          exact ⟨b,mem_cons_of_mem _ listed,lifted⟩

theorem Primitive.apply_fits {steady : Prop} {vars : Set String} {op : Primitive}
    {next next' : Nat} {v : Value} (fits : ∀ a ∈ args, a.Fits steady kinds vars)
    (applied : op.apply args next = .ok (v,next')) : v.Fits steady kinds vars := by
  obtain ⟨_,⟨_,reduced⟩ | ⟨_,codes,c,lifted,emitted,rfl⟩⟩ := apply_cases applied
  · exact (reduce_makes reduced).inherit (fun _ => trivial) trivial (fun _ _ _ => .rfl) fits
  · refine emit_within (fun c member => ?_) emitted
    obtain ⟨a,listed,lifted⟩ := mem_liftAll lifted member
    exact (fits a listed).lift lifted

section Environments

variable {steady : Prop} {kinds : List SlotKind} {vars refs refs' : Set String} {env : Env}
  {slots : Slots} {x : String} {k : SlotKind} {v : Value}

theorem Env.mem_of_slot {i : Nat} (named : env.slot? x = some i) : (x,i) ∈ env := by
  obtain ⟨before,after,rfl,_⟩ := lookup_eq_some_iff.mp named
  simp

theorem Env.Fits.value (fits : env.Fits kinds vars) (fit : Slots.Fit steady kinds slots)
    (found : env.value? slots x = some v) : v.Fits steady kinds vars := by
  obtain ⟨i,named,held⟩ := Option.bind_eq_some_iff.mp found
  obtain ⟨k,known,inside⟩ := fits _ (mem_of_slot named)
  exact (fit.each i k v known held).1.mono (.refl _) inside

theorem Env.Refers.value (refers : env.Refers kinds refs) (fit : Slots.Fit steady kinds slots)
    (member : x ∈ refs) : ∃ c, env.value? slots x = some (.code c) := by
  obtain ⟨i,k,named,known,code⟩ := refers x member
  have inside : i < slots.size := fit.count ▸ lt_of_getElem? known
  have code := (fit.each i k slots[i] known (Array.getElem?_eq_getElem inside)).2 code
  obtain ⟨c,held⟩ : ∃ c, slots[i] = .code c := by
    cases held : slots[i] with
    | code c => exact ⟨c,rfl⟩
    | _ =>
      rw [held] at code
      cases code
  exact ⟨c,Option.bind_eq_some_iff.mpr ⟨i,named,by rw [Array.getElem?_eq_getElem inside,held]⟩⟩

theorem Env.Fits.extend (fits : env.Fits kinds vars) (inside : k.vars ⊆ vars) (x : String) :
    Fits (kinds ++ [k]) vars ((x,kinds.length) :: env) := by
  intro entry member
  rcases mem_cons.mp member with rfl | old
  · exact ⟨k,getElem?_concat_length,inside⟩
  · exact fits.mono (SlotKind.grow_concat kinds k) subset_rfl entry old

theorem Env.Refers.extend (refers : env.Refers kinds refs) (each : ∀ y ∈ refs', y = x ∧ k.code ∨ y ∈ refs ∧ y ≠ x) :
    Refers (kinds ++ [k]) refs' ((x,kinds.length) :: env) := by
  intro y member
  rw [slot?_cons]
  rcases each y member with ⟨same,code⟩ | ⟨old,other⟩
  · exact ⟨kinds.length,k,if_pos same,getElem?_concat_length,code⟩
  · rw [if_neg other]
    exact refers.mono (SlotKind.grow_concat kinds k) subset_rfl y old

variable (fit : Slots.Fit steady kinds slots)

include fit

theorem Slots.Fit.push (fits : v.Fits steady kinds k.vars) (code : k.code → v.isCode) :
    Slots.Fit steady (kinds ++ [k]) (slots.push v) where
  count := by simp [fit.count]
  each i other u known held := by
    have grows := SlotKind.grow_concat kinds k
    rw [Array.getElem?_push] at held
    split at held
    · next same =>
      cases held
      rw [same,fit.count,getElem?_concat_length] at known
      cases known
      exact ⟨fits.mono grows subset_rfl,code⟩
    · have inside := (Array.getElem?_eq_some_iff.mp held).1
      rw [getElem?_append_left (fit.count ▸ inside)] at known
      obtain ⟨fits,code⟩ := fit.each i other u known held
      exact ⟨fits.mono grows subset_rfl,code⟩

theorem Slots.Fit.set {i : Nat}
    (fits : ∀ k, kinds[i]? = some k → v.Fits steady kinds k.vars ∧ (k.code → v.isCode)) :
    Slots.Fit steady kinds (slots.setIfInBounds i v) where
  count := by rw [Array.size_setIfInBounds,fit.count]
  each j other u known held := by
    rw [Array.getElem?_setIfInBounds] at held
    split at held
    · next same =>
      subst same
      split at held
      · cases held
        exact fits other known
      · cases held
    · exact fit.each j other u known held

/-- The name has a slot for values that use the given variables, which can be written to. -/
def Env.Owns (kinds : List SlotKind) (vars : Set String) (env : Env) (x : String) : Prop :=
  ∃ i, env.slot? x = some i ∧ kinds[i]? = some ⟨vars,False⟩

theorem extendAll_fits {entries : List (String × Value)}
    (each : ∀ entry ∈ entries, entry.2.Fits steady kinds vars) (fits : env.Fits kinds vars)
    (refers : env.Refers kinds refs) (apart : ∀ entry ∈ entries, entry.1 ∉ refs) :
    ∃ kinds', SlotKind.Grow kinds kinds' ∧ Slots.Fit steady kinds' (env.extendAll slots entries).2 ∧
      Fits kinds' vars (env.extendAll slots entries).1 ∧
      Refers kinds' refs (env.extendAll slots entries).1 ∧
      ∀ x, (x ∈ entries.map Prod.fst ∨ Owns kinds vars env x) →
        Owns kinds' vars (env.extendAll slots entries).1 x := by
  induction entries generalizing kinds env slots with
  | nil =>
    refine ⟨kinds,.refl _,fit,fits,refers,fun x given => ?_⟩
    exact given.resolve_left (by simp)
  | cons entry entries ih =>
    obtain ⟨first,rest⟩ := forall_mem_cons.mp each
    obtain ⟨new,others⟩ := forall_mem_cons.mp apart
    have grows := SlotKind.grow_concat kinds ⟨vars,False⟩
    have around : Fits (kinds ++ [⟨vars,False⟩]) vars ((entry.1,slots.size) :: env) :=
      fit.count ▸ fits.extend subset_rfl entry.1
    have refers : Refers (kinds ++ [⟨vars,False⟩]) refs ((entry.1,slots.size) :: env) :=
      fit.count ▸ refers.extend fun y member => .inr ⟨member,fun same => new (same ▸ member)⟩
    obtain ⟨kinds',more,fit',fits',refers',owns⟩ := ih (fit.push first False.elim)
      (fun other member => (rest other member).mono grows subset_rfl) around refers others
    refine ⟨kinds',grows.trans more,fit',fits',refers',fun x given => ?_⟩
    refine owns x ?_
    -- A name that comes first may come again later, in a slot of the same kind.
    by_cases same : x = entry.1
    · refine .inr ⟨slots.size,?_,?_⟩
      · rw [slot?_cons,if_pos same]
      · rw [fit.count,getElem?_concat_length]
    · rcases given with listed | ⟨i,named,known⟩
      · exact .inl ((mem_cons.mp listed).resolve_left same)
      · refine .inr ⟨i,?_,grows i _ known⟩
        rw [slot?_cons,if_neg same,named]

end Environments

section Stores

variable {steady : Prop} {w w' : World} {s s' : Store} {p q : Standpoint} {l : Level} {i : Nat}

theorem Level.Fits.mono (fits : l.Fits steady w p) (less : w ≤ w') : l.Fits steady w' p where
  native := fits.native
  staging := fits.staging
  steady := fits.steady
  env := fits.env.mono less.slots subset_rfl
  refers := fits.refers.mono less.slots subset_rfl
  drops := fits.drops
  parent a above := less.places _ _ (fits.parent a above)

theorem Level.Fits.move (fits : l.Fits steady w p) {r : Standpoint} (known : w.places[i]? = some r)
    (apart : r.isRoot = false ∨ q = r) : l.Fits steady (w.move i q) p where
  native := fits.native
  staging := fits.staging
  steady := fits.steady
  env := fits.env
  refers := fits.refers
  drops := fits.drops
  parent a above := by
    have root := fits.parent a above
    rcases apart with inner | rfl
    · have other : i ≠ a := by
        rintro rfl
        cases known.symm.trans root
        cases inner
      rw [World.move,getElem?_set_ne other]
      exact root
    · rw [World.move_self known]
      exact root

theorem Level.Fits.widen (fits : l.Fits steady w p) (vars : p.vars ⊆ q.vars)
    (refs : q.refs ⊆ p.refs) (lifts : q.lifts = p.lifts) : l.Fits steady w q where
  native := fits.native
  staging given := fits.staging (lifts ▸ given)
  steady given := lifts ▸ fits.steady given
  env := fits.env.mono (.refl _) vars
  refers := fits.refers.mono (.refl _) refs
  drops r member := ⟨vars (fits.drops r member).1,vars (fits.drops r member).2⟩
  parent := fits.parent

namespace Store.Fits

variable (fits : s.Fits steady w)

include fits

theorem inside (known : w.places[i]? = some p) : i < s.levels.size :=
  fits.count ▸ lt_of_getElem? known

theorem of_same (slots : s'.slots = s.slots) (levels : s'.levels = s.levels) : s'.Fits steady w where
  slots := slots ▸ fits.slots
  count := levels ▸ fits.count
  levels i p known := by
    rw [Store.levelAt,levels]
    exact fits.levels i p known

theorem grow {kinds : List SlotKind} (more : SlotKind.Grow w.slots kinds)
    (slots : Slots.Fit steady kinds s'.slots) (levels : s'.levels = s.levels) :
    s'.Fits steady { w with slots := kinds } where
  slots := slots
  count := levels ▸ fits.count
  levels i p known := by
    rw [Store.levelAt,levels]
    exact (fits.levels i p known).mono ⟨more,fun _ _ known => known⟩

theorem enter (level : l.Fits steady w p) : Store.Fits steady (w.enter p) { s with levels := s.levels.push l } where
  slots := fits.slots
  count := by simp [World.enter,fits.count]
  levels i q known := by
    rw [s.levelAt_push]
    split
    · next same =>
      rw [same,fits.count,w.enter_last] at known
      cases known
      exact level.mono (w.le_enter p)
    · next other =>
      have inside := lt_of_getElem? known
      simp only [World.enter,length_append,length_singleton] at inside
      rw [World.enter,getElem?_append_left (by rw [← fits.count] at *; omega)] at known
      exact (fits.levels i q known).mono (w.le_enter p)

theorem update (known : w.places[i]? = some p) (apart : p.isRoot = false ∨ q = p)
    (slots : s'.slots = s.slots) (size : s'.levels.size = s.levels.size)
    (others : ∀ j, i ≠ j → s'.levelAt j = s.levelAt j) (level : (s'.levelAt i).Fits steady w q) :
    s'.Fits steady (w.move i q) where
  slots := slots ▸ fits.slots
  count := by rw [size,fits.count,World.move,length_set]
  levels j r there := by
    by_cases same : i = j
    · subst same
      cases (World.move_same known q).symm.trans there
      exact level.move known apart
    · rw [World.move,getElem?_set_ne same] at there
      rw [others j same]
      exact (fits.levels j r there).move known apart

end Store.Fits

end Stores

end StagedLisp
