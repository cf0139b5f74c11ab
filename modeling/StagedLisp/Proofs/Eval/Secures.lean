import StagedLisp.Proofs.Eval.World

/-! Computations that leave a store which fits its world, or a larger one. There is a rule for each
way to combine them, and for each operation on the store. -/
namespace StagedLisp

open Eval

/-- From a store that fits the world `w` the computation leads to one that fits a world beyond
`base`, also if it ends with an error. A result is as stated. -/
def Secures (steady : Prop) (base w : World) {α : Type} (R : World → α → Prop) (x : Eval α) : Prop :=
  ∀ s : Store, s.Fits steady w → ∃ w', base ≤ w' ∧ (x.run.run s).2.Fits steady w' ∧
    ∀ a, (x.run.run s).1 = .ok a → R w' a

theorem Store.Fits.addRoot {steady : Prop} {w : World} {s : Store} (fits : s.Fits steady w) :
    ∃ w', w ≤ w' ∧ s.addRoot.2.Fits steady w' ∧ w'.places[s.addRoot.1]? = some .root := by
  have values : ∀ entry ∈ Primitive.all.map fun op => (op.name,Value.prim op),
      entry.2.Fits steady w.slots ∅ := by simp [Value.Fits]
  have unbound : Env.Fits w.slots ∅ [] ∧ Env.Refers w.slots ∅ [] :=
    ⟨fun _ member => (nomatch member),fun _ member => member.elim⟩
  obtain ⟨kinds,more,slots,env,refers,_⟩ := extendAll_fits fits.slots values unbound.1 unbound.2 (fun _ _ => id)
  have grown : Store.Fits steady { w with slots := kinds }
      { s with slots := (Env.primitives s.slots).2 } := fits.grow more slots rfl
  have level : Level.Fits steady { w with slots := kinds } .root { env := (Env.primitives s.slots).1 } :=
    ⟨fun rule => by cases rule <;> rfl,fun _ => rfl,fun _ => trivial,env,refers,nofun,nofun⟩
  have less : w ≤ { w with slots := kinds } := ⟨more,fun _ _ known => known⟩
  refine ⟨World.enter { w with slots := kinds } .root,?_,grown.enter level,?_⟩
  · exact less.trans (World.le_enter _ _)
  · show (World.enter { w with slots := kinds } .root).places[s.levels.size]? = _
    rw [fits.count]
    exact World.enter_last _ _

namespace Secures

variable {steady : Prop} {base mid w : World} {α β : Type} {R : World → α → Prop}
  {Q : World → β → Prop} {x : Eval α} {f : α → Eval β}

theorem bind (first : Secures steady mid w R x) (less : base ≤ mid)
    (next : ∀ w' a, mid ≤ w' → R w' a → Secures steady base w' Q (f a)) :
    Secures steady base w Q (x >>= f) := by
  intro s fits
  obtain ⟨w',beyond,fits,result⟩ := first s fits
  generalize ran : x.run.run s = after at fits result
  obtain ⟨r,s'⟩ := after
  cases r with
  | ok a =>
    rw [run_bind_ok ran]
    exact next w' a beyond (result a rfl) s' fits
  | error e =>
    rw [run_bind_error ran]
    exact ⟨w',less.trans beyond,fits,nofun⟩

theorem andThen (first : Secures steady w w (fun w' _ => w' = w) x) (less : base ≤ w)
    (next : ∀ a, Secures steady base w Q (f a)) : Secures steady base w Q (x >>= f) :=
  first.bind less fun _ a _ same => same ▸ next a

theorem mono {S : World → α → Prop} (secures : Secures steady mid w R x) (less : base ≤ mid)
    (weaker : ∀ w' a, mid ≤ w' → R w' a → S w' a) : Secures steady base w S x := by
  intro s fits
  obtain ⟨w',beyond,fits,result⟩ := secures s fits
  exact ⟨w',less.trans beyond,fits,fun a ok => weaker w' a beyond (result a ok)⟩

theorem pure {a : α} (less : base ≤ w) (result : R w a) : Secures steady base w R (Pure.pure a) := by
  intro s fits
  refine ⟨w,less,fits,fun b ok => ?_⟩
  cases ok
  exact result

theorem fault (less : base ≤ w) {cause : Fault} : Secures steady base w R (fault cause) :=
  fun _ fits => ⟨w,less,fits,nofun⟩

theorem adapt {g : Error → Error} (secures : Secures steady base w R x) : Secures steady base w R (x.adapt g) := by
  intro s fits
  obtain ⟨w',beyond,fits,result⟩ := secures s fits
  refine ⟨w',beyond,fits,fun a ok => result a ?_⟩
  change Except.mapError g (x.run.run s).1 = .ok a at ok
  cases ran : (x.run.run s).1 with
  | ok b =>
    rw [ran] at ok
    cases ok
    rfl
  | error e =>
    rw [ran] at ok
    cases ok

theorem result {r : Result α} (less : base ≤ w) (next : ∀ a, r = .ok a → Secures steady base w Q (f a)) :
    Secures steady base w Q (ofResult r >>= f) := by
  cases r with
  | error e => exact fun _ fits => ⟨w,less,fits,nofun⟩
  | ok a =>
    rw [ofResult_ok_bind]
    exact next a rfl

theorem get {f : Store → Eval β} (next : ∀ s, Secures steady base w Q (f s)) :
    Secures steady base w Q (MonadState.get >>= f) :=
  fun s fits => next s s fits

variable {i : Nat} {p q : Standpoint} {vars refs : Set String} {env : Env}

theorem level {f : Level → Eval β} (known : w.places[i]? = some p)
    (next : ∀ l, l.Fits steady w p → Secures steady base w Q (f l)) :
    Secures steady base w Q (level i >>= f) :=
  fun s fits => next (s.levelAt i) (fits.levels i p known) s fits

theorem value? {x : String} {f : Option Value → Eval β} (fits : env.Fits w.slots vars)
    (refers : env.Refers w.slots refs)
    (next : ∀ old, (x ∈ refs → ∃ c, old = some (.code c)) → (∀ v, old = some v →
      v.Fits steady w.slots vars ∧ (v.isCode = false → ∀ i k, env.slot? x = some i →
        w.slots[i]? = some k → ¬ k.code)) → Secures steady base w Q (f old)) :
    Secures steady base w Q (value? env x >>= f) := by
  intro s store
  refine next (env.value? s.slots x) (refers.value store.slots) (fun v found => ?_) s store
  refine ⟨fits.value store.slots found,fun plain i k named known code => ?_⟩
  obtain ⟨j,named',held⟩ := Option.bind_eq_some_iff.mp found
  cases named.symm.trans named'
  cases plain.symm.trans ((store.slots.each i k v known held).2 code)

theorem of_kept (less : base ≤ w) (kept : ∀ s : Store, s.Fits steady w →
      (x.run.run s).2.Fits steady w ∧ ∀ a, (x.run.run s).1 = .ok a → R w a) :
    Secures steady base w R x :=
  fun s fits => ⟨w,less,(kept s fits).1,(kept s fits).2⟩

theorem fresh : Secures steady w w (fun w' _ => w' = w) fresh :=
  of_kept le_rfl fun _ fits => ⟨fits.of_same rfl rfl,fun _ _ => rfl⟩

theorem reference (x : String) : Secures steady w w
    (fun w' v => w' = w ∧ v = .code (.var (Code.identifier x))) (reference x) := by
  refine of_kept le_rfl fun s fits => ⟨fits.of_same rfl rfl,fun v ok => ⟨rfl,?_⟩⟩
  cases ok
  rfl

theorem registerRecord (name : String) (fields : List Field) :
    Secures steady w w (fun w' _ => w' = w) (registerRecord name fields) := by
  refine get fun s => result le_rfl fun registry _ => ?_
  exact of_kept le_rfl fun _ fits => ⟨fits.of_same rfl rfl,fun _ _ => rfl⟩

theorem primitive (op : Primitive) {args : List Value} (each : ∀ a ∈ args, a.Fits steady w.slots vars) :
    Secures steady w w (fun w' v => v.Fits steady w'.slots vars) (primitive op args) := by
  refine get fun s => result le_rfl fun made applied => ?_
  refine of_kept le_rfl fun _ fits => ⟨fits.of_same rfl rfl,fun v ok => ?_⟩
  cases ok
  exact Primitive.apply_fits each applied

theorem extendAll {entries : List (String × Value)}
    (each : ∀ entry ∈ entries, entry.2.Fits steady w.slots vars) (fits : env.Fits w.slots vars)
    (refers : env.Refers w.slots refs) (apart : ∀ entry ∈ entries, entry.1 ∉ refs) :
    Secures steady w w (fun w' grown => w'.places = w.places ∧ grown.Fits w'.slots vars ∧
      grown.Refers w'.slots refs ∧ ∀ x ∈ entries.map Prod.fst, grown.Owns w'.slots vars x)
      (extendAll env entries) := by
  intro s store
  obtain ⟨kinds,more,slots,grown,refers,owns⟩ := extendAll_fits store.slots each fits refers apart
  refine ⟨{ w with slots := kinds },⟨more,fun _ _ known => known⟩,store.grow more slots rfl,fun env ok => ?_⟩
  cases ok
  exact ⟨rfl,grown,refers,fun x listed => owns x (.inl listed)⟩

theorem extend {x : String} {c : Code} (within : c.Within vars) (fits : env.Fits w.slots vars)
    (refers : env.Refers w.slots refs) :
    Secures steady w w (fun w' grown => w'.places = w.places ∧ grown.Fits w'.slots vars ∧
      grown.Refers w'.slots (insert x refs)) (extend env x (.code c)) := by
  intro s store
  have count := store.slots.count
  have code : Value.Fits steady w.slots vars (.code c) := within
  refine ⟨w.hold ⟨vars,True⟩,w.le_hold _,store.grow (w.le_hold ⟨vars,True⟩).slots
    (store.slots.push code fun _ => rfl) rfl,fun grown ok => ?_⟩
  cases ok
  refine ⟨rfl,?_,?_⟩
  · rw [count]
    exact fits.extend (k := ⟨vars,True⟩) subset_rfl x
  · rw [count]
    refine refers.extend fun y member => ?_
    by_cases same : y = x
    · exact .inl ⟨same,trivial⟩
    · exact .inr ⟨(Set.mem_insert_iff.mp member).resolve_left same,same⟩

variable (known : w.places[i]? = some p)

include known

theorem scope {f : Nat → Eval β} (lifts : (steady → p.lifts) → (q.lifts → p.lifts) ∧ (steady → q.lifts))
    (fits : env.Fits w.slots q.vars) (refers : env.Refers w.slots q.refs)
    (next : Secures steady base (w.enter q) Q (f w.places.length)) :
    Secures steady base w Q (scope i env >>= f) := by
  intro s store
  have level := store.levels i p known
  obtain ⟨lifts,stages⟩ := lifts level.steady
  have inner : ((s.levelAt i).scope env).Fits steady w q :=
    ⟨level.native,fun given => level.staging (lifts given),stages,fits,refers,nofun,level.parent⟩
  rw [← store.count] at next
  exact next _ (store.enter inner)

theorem updateLevel {g : Level → Level} (changed : ∀ l, l.Fits steady w p → (g l).Fits steady w p) :
    Secures steady w w (fun w' _ => w' = w) (updateLevel i g) := by
  refine of_kept le_rfl fun s fits => ⟨?_,fun _ _ => rfl⟩
  have level (j : Nat) := s.levelAt_modify i j g (fits.inside known)
  have here := changed _ (fits.levels i p known)
  rw [← World.move_self known]
  refine fits.update known (.inr rfl) rfl Array.size_modify (fun j other => ?_) ?_
  · exact (level j).trans (if_neg other)
  · refine (congrArg (Level.Fits steady w p) ?_).mpr here
    exact (level i).trans (if_pos rfl)

theorem recordShapes (shapes : List (String × Shape)) :
    Secures steady w w (fun w' _ => w' = w) (recordShapes i shapes) :=
  updateLevel known fun _ fits => { fits with }

theorem setReleases {releases : List BranchRelease} (within : ∀ r ∈ releases, r.drop.Within p.vars) :
    Secures steady w w (fun w' _ => w' = w) (setReleases i releases) :=
  updateLevel known fun _ fits => { fits with drops := within }

theorem stopStaging (off : ¬ p.lifts) : Secures steady w w (fun w' _ => w' = w) (setStaging i false) :=
  updateLevel known fun _ fits => { fits with staging := fun given => (off given).elim }

theorem parent : Secures steady w w (fun w' above => w'.places[above]? = some .root) (parent i) := by
  refine level known fun l fits => ?_
  cases found : l.parent with
  | some above => exact .pure le_rfl (fits.parent above found)
  | none =>
    have added : Secures steady w w (fun w' above => w'.places[above]? = some .root) addRoot := by
      intro s store
      obtain ⟨w',beyond,fits,root⟩ := store.addRoot
      refine ⟨w',beyond,fits,fun above ok => ?_⟩
      cases ok
      exact root
    refine added.bind le_rfl fun w' above beyond root => ?_
    have known := beyond.places i p known
    have linked (l : Level) (fits : l.Fits steady w' p) : Level.Fits steady w' p { l with parent := some above } :=
      { fits with parent := fun a same => Option.some.inj same ▸ root }
    exact (updateLevel known linked).andThen beyond fun _ => .pure beyond root

theorem define {k : SlotKind} {x : String} {v : Value} (apart : p.isRoot = false ∨ q = p)
    (fits : v.Fits steady w.slots k.vars) (code : k.code → v.isCode) (inside : k.vars ⊆ q.vars)
    (vars : p.vars ⊆ q.vars) (lifts : q.lifts = p.lifts)
    (refs : ∀ y ∈ q.refs, y = x ∧ k.code ∨ y ∈ p.refs ∧ y ≠ x) (less : base ≤ (w.hold k).move i q) :
    Secures steady base w (fun w' _ => w' = (w.hold k).move i q) (define i x v) := by
  intro s store
  refine ⟨(w.hold k).move i q,less,?_,fun _ _ => rfl⟩
  have grown : Store.Fits steady (w.hold k) { s with slots := s.slots.push v } :=
    store.grow (w.le_hold k).slots (store.slots.push fits code) rfl
  have level (j : Nat) := Store.levelAt_modify { s with slots := s.slots.push v } i j
    (fun l => { l with env := (x,s.slots.size) :: (s.levelAt i).env }) (store.inside known)
  have old := (store.levels i p known).mono (w.le_hold k)
  have here : Level.Fits steady (w.hold k) q { s.levelAt i with env := (x,s.slots.size) :: (s.levelAt i).env } := by
    rw [store.slots.count]
    refine { old with
      staging := fun given => old.staging (lifts ▸ given)
      steady := fun given => lifts ▸ old.steady given
      env := ?_
      refers := (store.levels i p known).refers.extend refs
      drops := fun r member => ⟨vars (old.drops r member).1,vars (old.drops r member).2⟩ }
    exact ((store.levels i p known).env.mono (.refl _) vars).extend inside x
  refine grown.update (i := i) (p := p) known apart rfl Array.size_modify (fun j other => ?_) ?_
  · exact (level j).trans (if_neg other)
  · refine (congrArg (Level.Fits steady (w.hold k) q) ?_).mpr here
    exact (level i).trans (if_pos rfl)

theorem move (apart : p.isRoot = false) (vars : p.vars ⊆ q.vars) (refs : q.refs ⊆ p.refs)
    (lifts : q.lifts = p.lifts) (secures : Secures steady base (w.move i q) R x) :
    Secures steady base w R x := by
  intro s store
  refine secures s (store.update known (.inl apart) rfl rfl (fun _ _ => rfl) ?_)
  exact (store.levels i p known).widen vars refs lifts

omit known in
theorem assign {x : String} {v : Value} (fits : ∀ i k, env.slot? x = some i → w.slots[i]? = some k →
      v.Fits steady w.slots k.vars ∧ (k.code → v.isCode)) :
    Secures steady w w (fun w' _ => w' = w) (assign env x v) := by
  refine of_kept le_rfl fun s store => ⟨?_,fun _ _ => rfl⟩
  unfold Eval.assign Env.assign?
  cases named : env.slot? x with
  | none => exact store
  | some i =>
    refine store.grow (.refl _) (store.slots.set fun k known => ?_) rfl
    exact fits i k named known

theorem dispatch {R : World → Value → Prop} {x : Eval Value} (secures : Secures steady base w R x)
    (rule : Rule) (reflected : Evaluator) (e : Value) :
    Secures steady base w R (dispatch rule x reflected i e) := by
  refine level known fun l fits => ?_
  rw [fits.native rule]
  exact secures

end Secures

end StagedLisp
