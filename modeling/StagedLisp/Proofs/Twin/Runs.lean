import StagedLisp.Proofs.Twin.Stores

/-! What two runs do together. An operation on stores that are equal up to the numbering gives results
that are, and a larger numbering. In the setting with a level that the second run has from the start, a
scope must not ask for a level of its own before the root has one; the runs part there, and the stores
show for ever that they did. -/
namespace StagedLisp

open Eval Store

open List (Forall₂)

variable {base r m : Nat} {entries entries' : List (String × Value)}

/-- No level younger than the root got a level above before the root did. -/
def Store.RootFirst (s : Store) (r : Nat) : Prop :=
  ∀ k q, r < k → (s.levelAt k).parent = some q → ∃ p ≤ k, (s.levelAt r).parent = some p

/-- The store on entry to a procedure: the operands are bound, in a scope of the caller's level. -/
def Store.entered (s : Store) (i : Nat) (env : Env) (entries : List (String × Value)) : Store :=
  { s with
    slots := (env.extendAll s.slots entries).2
    levels := s.levels.push ((s.levelAt i).scope (env.extendAll s.slots entries).1) }

theorem Eval.run_applyTo_closure (eval : Evaluator) (i id : Nat) (params : List String)
    (body : Value) (env : Env) (args : List Value) (s : Store) :
    (applyTo eval i (.closure id params body env) args).run.run s =
      ((eval s.levels.size body).adapt (·.leaving body)).run.run (s.entered i env (params.zip args)) := rfl

namespace Twin

def Orderly (σ : Setting) (s : Store) : Prop := ∀ r m, σ.early = some (r,m) → s.RootFirst r

/-- A store that is out of order does not come into order again. -/
def Irreversible (σ : Setting) {α : Type} (x : Eval α) : Prop :=
  ∀ s, Orderly σ (x.run.run s).2 → Orderly σ s

/-- Evaluation does not bring a store into order. -/
def Lasts (σ : Setting) (eval : Evaluator) : Prop := ∀ i e, Irreversible σ (eval i e)

variable {σ : Setting}

/-- Levels with their levels above stay, and the root gets none while they come to be. -/
theorem Orderly.before {s s' : Store} (orderly : Orderly σ s')
    (kept : ∀ k q, (s.levelAt k).parent = some q → (s'.levelAt k).parent = some q)
    (root : ∀ r p k q, r < k → (s.levelAt k).parent = some q → (s'.levelAt r).parent = some p →
      p ≤ k → (s.levelAt r).parent = some p) : Orderly σ s := by
  intro r m early k q younger above
  obtain ⟨p,before,found⟩ := orderly r m early k q younger (kept k q above)
  exact ⟨p,before,root r p k q younger above found before⟩

theorem parent_inside {s : Store} {k q : Nat} (above : (s.levelAt k).parent = some q) : k < s.levels.size := by
  by_contra beyond
  rw [levelAt_beyond (not_lt.mp beyond)] at above
  cases above

theorem irreversible_parent (σ : Setting) (i : Nat) : Irreversible σ (parent i) := by
  intro s orderly
  cases above : (s.levelAt i).parent with
  | some p =>
    rw [run_parent_some above] at orderly
    exact orderly
  | none =>
    rw [run_parent_none above] at orderly
    refine orderly.before (fun k q found => s.parent_raised i found ?_) fun r p k q younger found => ?_
    · rintro rfl
      rw [above] at found
      cases found
    · have inside := parent_inside found
      rw [s.levelAt_raised i r]
      split
      · rintro ⟨⟩ before
        omega
      · rw [s.levelAt_addRoot,if_neg (by omega)]
        exact fun risen _ => risen

theorem irreversible_add (σ : Setting) (l : Level) : Irreversible σ (addLevel l) := by
  intro s orderly
  have levelAt {k : Nat} (old : k < s.levels.size) :
      levelAt { s with levels := s.levels.push l } k = s.levelAt k := by
    rw [levelAt_push,if_neg old.ne]
  refine orderly.before (fun k q above => ?_) fun r p k q younger above risen _ => ?_
  · exact (congrArg Level.parent (levelAt (parent_inside above))).trans above
  · have old := younger.trans (parent_inside above)
    exact (congrArg Level.parent (levelAt old)).symm.trans risen

/-- What follows cannot make up for a first part that goes out of order. -/
theorem Orderly.first {α β : Type} {x : Eval α} {f : α → Eval β} {s : Store}
    (later : ∀ a, Irreversible σ (f a)) (orderly : Orderly σ ((x >>= f).run.run s).2) :
    Orderly σ (x.run.run s).2 := by
  obtain ⟨r,s',ran⟩ : ∃ r s', x.run.run s = (r,s') := ⟨_,_,rfl⟩
  rw [ran]
  cases r with
  | ok a =>
    rw [run_bind_ok ran] at orderly
    exact later a s' orderly
  | error e =>
    rw [run_bind_error ran] at orderly
    exact orderly

theorem Irreversible.bind {α β : Type} {x : Eval α} {f : α → Eval β} (first : Irreversible σ x)
    (next : ∀ a, Irreversible σ (f a)) : Irreversible σ (x >>= f) :=
  fun s orderly => first s (orderly.first next)

theorem Irreversible.of_parallel {known : Nat → Prop} {α : Type} {x y : Eval α}
    (parallel : Parallel (fun eval _ => Lasts σ eval) base known x y) : Irreversible σ x := by
  induction parallel with
  | pure | throw => exact fun _ => id
  | bind _ _ first next => exact first.bind next
  | adapt _ _ ih => exact ih
  | get _ _ ih => exact fun s => ih s s
  | change same =>
    intro s orderly
    have levelAt := levelAt_congr (same s)
    exact orderly.before (fun k q above => (congrArg Level.parent (levelAt k)).trans above)
      fun r p k q _ _ risen _ => (congrArg Level.parent (levelAt r)).symm.trans risen
  | @scope _ _ _ _ i env _ _ ih =>
    have opens : Irreversible σ (scope i env) := fun s => irreversible_add σ ((s.levelAt i).scope env) s
    exact opens.bind ih
  | parent _ _ ih => exact (irreversible_parent σ _).bind ih
  | @update _ i _ _ stays =>
    intro s orderly
    exact orderly.before (fun k q above => (s.parent_update i stays k).trans above)
      fun r p k q _ _ risen _ => (s.parent_update i stays r).symm.trans risen
  | call lasts => exact lasts _ _

/-- How parents of levels change in a computation at the level `i`: only at the root itself can the root
get a level above, and what is above a level stays there. -/
structure Moves (i r m : Nat) (s t s' t' : Store) : Prop where
  root : i ≠ r → (s'.levelAt r).parent = (s.levelAt r).parent
  kept : ∀ k p, (s.levelAt k).parent = some p → (s'.levelAt k).parent = some p
  fixed : ∀ k < t.levels.size, (t'.levelAt k).parent = some m → (t.levelAt k).parent = some m
  size : t.levels.size ≤ t'.levels.size

/-- Both stores go on to be equal up to a larger numbering. -/
structure Evolves (σ : Setting) (i : Nat) (n : Numbering) (s t : Store) (n' : Numbering)
    (s' t' : Store) : Prop where
  within : n.Within n'
  stores : Stores σ n' s' t'
  moves : ∀ r m, σ.early = some (r,m) → Moves i r m s t s' t'

def Off (σ : Setting) (i : Nat) : Prop := ∀ r m, σ.early = some (r,m) → i ≠ r

/-- A level with nothing above it yet, where the second run has the level of the root, is the root; or
the root has nothing above it yet. -/
def Calm (σ : Setting) (s t : Store) (i j : Nat) : Prop :=
  ∀ r m, σ.early = some (r,m) → (s.levelAt i).parent = none → (t.levelAt j).parent = some m →
    i = r ∨ (s.levelAt r).parent = none

structure Callers (σ : Setting) (n : Numbering) (s t : Store) (i j : Nat) : Prop where
  kindred : Kindred σ n t (s.levelAt i) (t.levelAt j)
  calm : Calm σ s t i j

structure Site (σ : Setting) (n : Numbering) (s t : Store) (i j : Nat) : Prop where
  levels : n.levels i j
  calm : Calm σ s t i j

/-- In a loose setting, the environments of the level agree on the names. -/
def Sees (σ : Setting) (n : Numbering) (i : Nat) (names : String → Prop) : Prop :=
  σ.loose = true → ∀ x, names x → n.seen i x

/-- Both runs are about to evaluate at levels that correspond. -/
structure Poised (σ : Setting) (n : Numbering) (s t : Store) (i j : Nat) : Prop where
  stores : Stores σ n s t
  site : Site σ n s t i j

/-- The levels are not the root, and have the same number in a loose setting. -/
structure Inner (σ : Setting) (n : Numbering) (s t : Store) (names : String → Prop) (i j : Nat) : Prop
    extends Poised σ n s t i j where
  off : Off σ i
  same : σ.loose = true → i = j
  sees : Sees σ n i names

section Evolution

variable {σ : Setting} {i j k : Nat} {n n' n'' : Numbering} {s t s' t' s'' t'' : Store}
  {names names' : String → Prop}

theorem Sees.mono (sees : Sees σ n i names) (within : n.Within n') : Sees σ n' i names :=
  fun loose x named => within.seen (sees loose x named)

theorem Sees.fewer (sees : Sees σ n i names) (fewer : ∀ x, names' x → names x) : Sees σ n i names' :=
  fun loose x named => sees loose x (fewer x named)

theorem Moves.of_parents (left : ∀ k, (s'.levelAt k).parent = (s.levelAt k).parent)
    (right : ∀ k, (t'.levelAt k).parent = (t.levelAt k).parent)
    (size : t.levels.size ≤ t'.levels.size) : Moves i r m s t s' t' :=
  ⟨fun _ => left r,fun k _ above => (left k).trans above,fun k _ above => (right k).symm.trans above, size⟩

theorem Evolves.refl (stores : Stores σ n s t) : Evolves σ i n s t n s t :=
  ⟨.refl n,stores,fun _ _ _ => .of_parents (fun _ => rfl) (fun _ => rfl) le_rfl⟩

theorem Evolves.trans (first : Evolves σ i n s t n' s' t')
    (second : Evolves σ i n' s' t' n'' s'' t'') : Evolves σ i n s t n'' s'' t'' where
  within := first.within.trans second.within
  stores := second.stores
  moves r m early := by
    have one := first.moves r m early
    have two := second.moves r m early
    refine ⟨fun off => (two.root off).trans (one.root off),
      fun k p above => two.kept k p (one.kept k p above),fun k inside above => ?_,
      one.size.trans two.size⟩
    exact one.fixed k inside (two.fixed k (inside.trans_le one.size) above)

/-- What happens at a level that is not the root leaves the root as it is. -/
theorem Evolves.elsewhere (off : Off σ k) (evolves : Evolves σ k n s t n' s' t') : Evolves σ i n s t n' s' t' where
  within := evolves.within
  stores := evolves.stores
  moves r m early := by
    have moves := evolves.moves r m early
    exact ⟨fun _ => moves.root (off r m early),moves.kept,moves.fixed,moves.size⟩

theorem Evolves.of_levels (within : n.Within n') (stores : Stores σ n' s' t')
    (left : s'.levels = s.levels) (right : t'.levels = t.levels) :
    Evolves σ i n s t n' s' t' := by
  refine ⟨within,stores,fun r m _ => .of_parents (fun k => ?_) (fun k => ?_) ?_⟩
  · rw [levelAt_congr left]
  · rw [levelAt_congr right]
  · exact Nat.le_of_eq (by rw [right])

section

variable (stores : Stores σ n s t)

include stores

theorem Evolves.addLevel {l l' : Level} (like : LevelLike σ n t names l l') :
    Evolves σ i n s t (n.withLevel s.levels.size t.levels.size names)
      { s with levels := s.levels.push l } { t with levels := t.levels.push l' } := by
  refine ⟨Numbering.within_withLevel _ _,stores.addLevel like,fun r m early => ?_⟩
  have known := stores.early r m early
  refine ⟨fun _ => ?_,fun k p above => ?_,fun k inside above => ?_,by simp⟩
  · rw [levelAt_push,if_neg known.root.ne]
  · rw [levelAt_push,if_neg (parent_inside above).ne]
    exact above
  · rwa [levelAt_push,if_neg inside.ne] at above

theorem Evolves.update (here : n.levels i j) {f g : Level → Level}
    (left : ∀ l, (f l).parent = l.parent) (right : ∀ l, (g l).parent = l.parent)
    (like : LevelLike σ n t names (f (s.levelAt i)) (g (t.levelAt j)))
    (covers : ∀ x, n.seen i x → names x) :
    Evolves σ k n s t (n.withNames i names) { s with levels := s.levels.modify i f }
      { t with levels := t.levels.modify j g } :=
  ⟨Numbering.within_withNames i,stores.update here left right like covers,fun _ _ _ =>
    .of_parents (s.parent_update i left) (t.parent_update j right) (by simp)⟩

theorem Stores.off : Off σ s.levels.size :=
  fun r m early => (stores.early r m early).root.ne'

omit stores in
theorem Callers.of_levels (callers : Callers σ n s t i j) (within : n.Within n')
    (left : s'.levels = s.levels) (right : t'.levels = t.levels) : Callers σ n' s' t' i j := by
  have levelAt := levelAt_congr left
  have levelAt' := levelAt_congr right
  constructor
  · rw [levelAt,levelAt']
    exact callers.kindred.mono within fun r m _ _ q _ above => by rwa [levelAt'] at above
  · intro r m early
    rw [levelAt,levelAt,levelAt']
    exact callers.calm r m early

theorem Evolves.raise (here : n.levels i j) (unrisen : (s.levelAt i).parent = none) :
    Evolves σ i n s t (n.raised s t i) (s.raised i) (t.raised j) := by
  refine ⟨(Numbering.within_withRoot _ _ _ _).trans (Numbering.within_withNames _),
    stores.raise here,fun r m early => ?_⟩
  have known := stores.early r m early
  refine ⟨fun off => ?_,fun k p above => s.parent_raised i above ?_,fun k inside above => ?_,?_⟩
  · rw [s.levelAt_raised,if_neg fun both => off both.1.symm,s.levelAt_addRoot,if_neg known.root.ne]
  · rintro rfl
    rw [unrisen] at above
    cases above
  · rw [t.levelAt_raised] at above
    split at above
    · have last := Option.some.inj above
      have := known.above
      omega
    · rwa [t.levelAt_addRoot,if_neg inside.ne] at above
  · rw [t.size_raised]
    exact Nat.le_succ _

theorem Evolves.rise (early : σ.early = some (r,m)) (here : n.levels r j)
    (unrisen : (s.levelAt r).parent = none) (above : (t.levelAt j).parent = some m)
    (pristine : Pristine n t m base) :
    Evolves σ r n s t (n.withRoot s.slots.size base s.levels.size m) (s.raised r) t := by
  refine ⟨Numbering.within_withRoot _ _ _ _,stores.rise early pristine here above,fun r' m' early' => ?_⟩
  cases early.symm.trans early'
  refine ⟨fun off => absurd rfl off,fun k p risen => s.parent_raised r risen ?_,fun _ _ => id, le_rfl⟩
  rintro rfl
  rw [unrisen] at risen
  cases risen

theorem Stores.raised_inner (here : n.levels i j) :
    Inner σ (n.raised s t i) (s.raised i) (t.raised j) (fun _ => True) s.levels.size t.levels.size := by
  refine ⟨⟨stores.raise here,.inr ⟨rfl,rfl⟩,fun r m early _ there => ?_⟩,stores.off,stores.sameCount,
    fun _ _ _ => .inl (.inr ⟨rfl,trivial⟩)⟩
  have inside := ((stores.early r m early).levels here).2.2
  rw [t.levelAt_raised_new inside,Level.root_parent] at there
  cases there

end

theorem Callers.scope (callers : Callers σ n s t i j) (stores : Stores σ n s t) {env env' : Env}
    (like : EnvLike σ n names env env') :
    Evolves σ k n s t (n.withLevel s.levels.size t.levels.size names)
        { s with levels := s.levels.push ((s.levelAt i).scope env) }
        { t with levels := t.levels.push ((t.levelAt j).scope env') } ∧
      Inner σ (n.withLevel s.levels.size t.levels.size names)
        { s with levels := s.levels.push ((s.levelAt i).scope env) }
        { t with levels := t.levels.push ((t.levelAt j).scope env') } names
        s.levels.size t.levels.size := by
  have kindred := callers.kindred
  have levels : LevelLike σ n t names ((s.levelAt i).scope env) ((t.levelAt j).scope env') :=
    ⟨⟨kindred.above,kindred.handlers,kindred.staging,kindred.known⟩,like,rfl⟩
  refine ⟨.addLevel stores levels,⟨stores.addLevel levels,.inr ⟨rfl,rfl⟩,
    fun r m early here there => ?_⟩,stores.off,stores.sameCount,fun _ _ named => .inr ⟨rfl,named⟩⟩
  rw [levelAt_push,if_pos rfl] at here there
  rw [levelAt_push,if_neg (stores.early r m early).root.ne]
  rcases callers.calm r m early here there with rfl | waits
  · exact .inr here
  · exact .inr waits

theorem Callers.enter (callers : Callers σ n s t i j) (stores : Stores σ n s t) {env env' : Env}
    (like : EnvLike σ n names env env')
    (each : Entries σ n entries entries') :
    ∃ n', Evolves σ i n s t n' (s.entered i env entries) (t.entered j env' entries') ∧
      Inner σ n' (s.entered i env entries) (t.entered j env' entries') names s.levels.size t.levels.size := by
  obtain ⟨grown,after⟩ := stores.extendAll like each
  have within : n.Within (n.withSlots s.slots.size t.slots.size entries.length) := Numbering.within_withSlots _ _ _
  have extended : Callers σ (n.withSlots s.slots.size t.slots.size entries.length)
      { s with slots := (env.extendAll s.slots entries).2 }
      { t with slots := (env'.extendAll t.slots entries').2 } i j :=
    callers.of_levels within rfl rfl
  have grows : Evolves σ i n s t (n.withSlots s.slots.size t.slots.size entries.length)
      { s with slots := (env.extendAll s.slots entries).2 }
      { t with slots := (env'.extendAll t.slots entries').2 } :=
    .of_levels within after rfl rfl
  obtain ⟨opens,inner⟩ := extended.scope after (grown.mono (.refl _) fun _ _ => .inr)
  exact ⟨_,grows.trans opens,inner⟩

theorem Site.callers (site : Site σ n s t i j) (stores : Stores σ n s t) : Callers σ n s t i j :=
  ⟨(stores.level site.levels).toKindred,site.calm⟩

theorem Site.evolve (site : Site σ n s t i j) (stores : Stores σ n s t)
    (evolves : Evolves σ i n s t n' s' t') : Site σ n' s' t' i j where
  levels := evolves.within.levels site.levels
  calm r m early here there := by
    have moves := evolves.moves r m early
    have inside := ((stores.early r m early).levels site.levels).2.2
    have unrisen : (s.levelAt i).parent = none := by
      cases above : (s.levelAt i).parent with
      | none => rfl
      | some p =>
        rw [moves.kept i p above] at here
        cases here
    rcases site.calm r m early unrisen (moves.fixed j inside there) with root | waits
    · exact .inl root
    · by_cases root : i = r
      · exact .inl root
      · exact .inr ((moves.root root).trans waits)

section

variable (poised : Poised σ n s t i j)

include poised

theorem Poised.evolve (evolves : Evolves σ i n s t n' s' t') : Poised σ n' s' t' i j :=
  ⟨evolves.stores,poised.site.evolve poised.stores evolves⟩

theorem Poised.callers : Callers σ n s t i j :=
  poised.site.callers poised.stores

theorem Poised.level : LevelLike σ n t (n.seen i) (s.levelAt i) (t.levelAt j) :=
  poised.stores.level poised.site.levels

theorem Poised.env (sees : Sees σ n i names) : EnvLike σ n names (s.levelAt i).env (t.levelAt j).env :=
  poised.level.env.mono (.refl n) sees

end

theorem Inner.evolve (inner : Inner σ n s t names i j) (evolves : Evolves σ i n s t n' s' t') :
    Inner σ n' s' t' names i j :=
  ⟨inner.toPoised.evolve evolves,inner.off,inner.same,inner.sees.mono evolves.within⟩

theorem Inner.knowing (inner : Inner σ n s t names i j) (sees : Sees σ n i names') : Inner σ n s t names' i j :=
  ⟨inner.toPoised,inner.off,inner.same,sees⟩

end Evolution

/-- Two computations that give related results, provided that the first store ends as `C` says. -/
def Together (σ : Setting) (i : Nat) (C : Store → Prop) {α : Type}
    (R : Numbering → Store → Store → α → α → Prop) (x y : Eval α) (n : Numbering) (s t : Store) :
    Prop :=
  C (x.run.run s).2 → ∃ n', Evolves σ i n s t n' (x.run.run s).2 (y.run.run t).2 ∧
    Result.Alike (R n' (x.run.run s).2 (y.run.run t).2) (x.run.run s).1 (y.run.run t).1

namespace Together

variable {σ : Setting} {i j k : Nat} {C : Store → Prop} {α β : Type} {n : Numbering} {s t : Store}
  {R : Numbering → Store → Store → α → α → Prop} {Q : Numbering → Store → Store → β → β → Prop}
  {x y : Eval α} {f g : α → Eval β} {names : String → Prop}

theorem mono {R' : Numbering → Store → Store → α → α → Prop} (runs : Together σ i C R x y n s t)
    (weaker : ∀ n' s' t' a b, Evolves σ i n s t n' s' t' → R n' s' t' a b → R' n' s' t' a b) :
    Together σ i C R' x y n s t := by
  intro holds
  obtain ⟨n',evolves,results⟩ := runs holds
  exact ⟨n',evolves,results.mono fun a b => weaker n' _ _ a b evolves⟩

theorem elsewhere (off : Off σ k) (runs : Together σ k C R x y n s t) : Together σ i C R x y n s t := by
  intro holds
  obtain ⟨n',evolves,results⟩ := runs holds
  exact ⟨n',evolves.elsewhere off,results⟩

theorem adapt {f : Error → Error} (runs : Together σ i C R x y n s t)
    (keeps : ∀ e e', Error.Alike e e' → (f e).Alike (f e')) :
    Together σ i C R (x.adapt f) (y.adapt f) n s t := by
  intro holds
  obtain ⟨n',evolves,results⟩ := runs holds
  exact ⟨n',evolves,results.mapError keeps⟩

theorem bind (first : Together σ i (fun _ => True) R x y n s t)
    (next : ∀ n' s' t' a b, Evolves σ i n s t n' s' t' → R n' s' t' a b → Together σ i C Q (f a) (g b) n' s' t') :
    Together σ i C Q (x >>= f) (y >>= g) n s t := by
  obtain ⟨n',evolves,results⟩ := first trivial
  generalize left : x.run.run s = after at evolves results
  generalize right : y.run.run t = after' at evolves results
  obtain ⟨r,s'⟩ := after
  obtain ⟨r',t'⟩ := after'
  unfold Together
  cases results with
  | @ok a b related =>
    rw [run_bind_ok left,run_bind_ok right]
    intro holds
    obtain ⟨n'',rest,results⟩ := next n' s' t' a b evolves related holds
    exact ⟨n'',evolves.trans rest,results⟩
  | error alike =>
    rw [run_bind_error left,run_bind_error right]
    exact fun _ => ⟨n',evolves,.error alike⟩

theorem andThen (first : Together σ i (Orderly σ) R x y n s t) (later : ∀ a, Built (Lasts σ) (f a))
    (next : ∀ n' s' t' a b, Evolves σ i n s t n' s' t' → R n' s' t' a b →
      Together σ i (Orderly σ) Q (f a) (g b) n' s' t') :
    Together σ i (Orderly σ) Q (x >>= f) (y >>= g) n s t := by
  intro orderly
  have before := Orderly.first (fun a => Irreversible.of_parallel (later a)) orderly
  exact bind (fun _ => first before) next orderly

theorem onStore {f g : Store → Eval β} (next : Together σ i C Q (f s) (g t) n s t) :
    Together σ i C Q (MonadState.get >>= f) (MonadState.get >>= g) n s t := next

theorem onLevel {a b : Nat} {f g : Level → Eval β}
    (next : Together σ i C Q (f (s.levelAt a)) (g (t.levelAt b)) n s t) :
    Together σ i C Q (level a >>= f) (level b >>= g) n s t := next

section Operations

variable (stores : Stores σ n s t)

include stores

theorem pure {a b : α} (related : R n s t a b) : Together σ i C R (Pure.pure a) (Pure.pure b) n s t :=
  fun _ => ⟨n,.refl stores,.ok related⟩

theorem ofResult {r r' : Result α} {related : α → α → Prop} (alike : Result.Alike related r r') :
    Together σ i C (fun _ _ _ => related) (ofResult r) (ofResult r') n s t := by
  intro _
  cases alike with
  | ok here => exact ⟨n,.refl stores,.ok here⟩
  | error here => exact ⟨n,.refl stores,.error here⟩

theorem fault {cause cause' : Fault} (alike : Error.Alike ⟨cause,[]⟩ ⟨cause',[]⟩) :
    Together σ i C R (fault cause) (fault cause') n s t :=
  fun _ => ⟨n,.refl stores,.error alike⟩

theorem checked (result : Result α) {rule rule' : α → Eval β}
    (each : ∀ found, result = .ok found → Together σ i C Q (rule found) (rule' found) n s t) :
    Together σ i C Q (Eval.ofResult result >>= rule) (Eval.ofResult result >>= rule') n s t := by
  cases result with
  | error => exact fun _ => ⟨n,.refl stores,.error (.refl _)⟩
  | ok found =>
    rw [ofResult_ok_bind,ofResult_ok_bind]
    exact each found rfl

theorem fresh : Together σ i C (fun _ _ _ => Eq) fresh fresh n s t := by
  have after := stores.data (congrArg (· + 1) stores.next) stores.registry stores.arena
  exact fun _ => ⟨n,.of_levels (.refl n) after rfl rfl,.ok stores.next⟩

variable {env env' : Env} {v w : Value} {a b : Nat}

section

variable (like : EnvLike σ n names env env')

include like

theorem extendAll (each : Entries σ n entries entries') :
    Together σ i C (fun n' _ _ => EnvLike σ n' fun x => x ∈ entries.map Prod.fst ∨ names x)
      (extendAll env entries) (extendAll env' entries') n s t := by
  obtain ⟨grown,after⟩ := stores.extendAll like each
  exact fun _ => ⟨_,.of_levels (Numbering.within_withSlots _ _ _) after rfl rfl,.ok grown⟩

theorem extend (x : String) (value : Values σ n v w) : Together σ i C (fun n' _ _ env env' => n'.seen = n.seen ∧
        EnvLike σ n' (fun y => y = x ∨ names y) env env')
      (extend env x v) (extend env' x w) n s t := by
  have each : Entries σ n [(x,v)] [(x,w)] := .cons ⟨rfl,value⟩ .nil
  obtain ⟨grown,after⟩ := stores.extendAll like each
  exact fun _ => ⟨_,.of_levels (Numbering.within_withSlots _ _ _) after rfl rfl,
    .ok ⟨rfl,grown.mono (.refl _) fun _ y => Or.imp_left List.mem_singleton.mpr⟩⟩

theorem value? {x : String} (named : names x) :
    Together σ i C (fun n' _ _ => Option.Rel (Values σ n')) (value? env x) (value? env' x) n s t := by
  refine fun _ => ⟨n,.refl stores,.ok ?_⟩
  show Option.Rel (Values σ n) (env.value? s.slots x) (env'.value? t.slots x)
  have found := like.slot? x named
  unfold Env.value?
  generalize env.slot? x = slot at found
  generalize env'.slot? x = slot' at found
  cases found with
  | none => exact .none
  | some here => exact stores.slot here

theorem assign {x : String} (named : names x) (value : Values σ n v w) :
    Together σ i C (fun _ _ _ => Eq) (assign env x v) (assign env' x w) n s t := by
  intro _
  have found := like.slot? x named
  unfold Eval.assign Env.assign?
  generalize env.slot? x = slot at found
  generalize env'.slot? x = slot' at found
  cases found with
  | none => exact ⟨n,.refl stores,.ok rfl⟩
  | some here => exact ⟨n,.of_levels (.refl n) (stores.setSlot here value) rfl rfl,.ok rfl⟩

end

theorem reference (x : String) : Together σ i C (fun n' _ _ => Values σ n') (reference x) (reference x) n s t := by
  have after := stores.data stores.next stores.registry
    (congrArg (fun arena => (Arena.intern arena (Code.identifier x)).2) stores.arena)
  exact fun _ => ⟨n,.of_levels (.refl n) after rfl rfl,.ok (.code _)⟩

theorem primitive (op : Primitive) {args args' : List Value} (each : Forall₂ (Values σ n) args args') :
    Together σ i C (fun n' _ _ => Values σ n') (primitive op args) (primitive op args') n s t := by
  refine onStore ?_
  rw [stores.next]
  refine (ofResult stores (Primitive.apply_like stores.oneSame op _ each)).bind fun n' s' t' a b one counted => ?_
  obtain ⟨v,next⟩ := a
  obtain ⟨w,next'⟩ := b
  obtain ⟨value,number⟩ := counted
  have after := one.stores.data number one.stores.registry one.stores.arena
  exact fun _ => ⟨n',.of_levels (.refl n') after rfl rfl,.ok (Values.mono value one.within)⟩

theorem registerRecord (x : String) (fields : List Field) :
    Together σ i C (fun _ _ _ _ _ => True) (registerRecord x fields) (registerRecord x fields) n s t := by
  refine onStore ?_
  rw [stores.registry]
  refine checked stores _ fun registry _ => ?_
  have after := stores.data stores.next (rfl : registry = registry) stores.arena
  exact fun _ => ⟨n,.of_levels (.refl n) after rfl rfl,.ok trivial⟩

theorem scope (callers : Callers σ n s t a b) (like : EnvLike σ n names env env') :
    Together σ i C (fun n' s' t' => Inner σ n' s' t' names) (scope a env) (scope b env') n s t := by
  obtain ⟨evolves,inner⟩ := callers.scope stores like
  exact fun _ => ⟨_,evolves,.ok inner⟩

section

variable (here : n.levels a b)

include here

theorem updateLevel {f g : Level → Level} (left : ∀ l, (f l).parent = l.parent)
    (right : ∀ l, (g l).parent = l.parent)
    (like : LevelLike σ n t (n.seen a) (f (s.levelAt a)) (g (t.levelAt b))) :
    Together σ i C (fun _ _ _ _ _ => True) (updateLevel a f) (updateLevel b g) n s t :=
  fun _ => ⟨_,.update stores here left right like fun _ => id,.ok trivial⟩

theorem define (x : String) (value : Values σ n v w) :
    Together σ i C (fun n' _ _ _ _ => n'.seen a x) (define a x v) (define b x w) n s t := by
  refine onLevel ?_
  refine (extend stores (stores.level here).env x value).bind fun n' s' t' env env' one grown => ?_
  have like := one.stores.level (one.within.levels here)
  have covers (y : String) (named : n'.seen a y) : y = x ∨ n.seen a y := .inr (grown.1 ▸ named)
  exact fun _ => ⟨_,.update one.stores (one.within.levels here) (fun _ => rfl) (fun _ => rfl)
    ⟨⟨like.above,like.handlers,like.staging,like.known⟩,grown.2,like.releases⟩ covers,
    .ok (.inr ⟨rfl,.inl rfl⟩)⟩

theorem setHandler (rule : Rule) {h h' : Handler} (handler : HandlerLike σ n h h') :
    Together σ i C (fun _ _ _ _ _ => True) (setHandler a rule h) (setHandler b rule h') n s t := by
  have like := stores.level here
  refine updateLevel stores here (fun _ => rfl) (fun _ => rfl)
    ⟨⟨like.above,fun other => ?_,like.staging,like.known⟩,like.env,like.releases⟩
  have kept := like.handlers other
  cases rule <;> cases other <;> first | exact handler | exact kept

theorem setStaging (staging : Bool) :
    Together σ i C (fun _ _ _ _ _ => True) (setStaging a staging) (setStaging b staging) n s t := by
  have like := stores.level here
  exact updateLevel stores here (fun _ => rfl) (fun _ => rfl)
    ⟨⟨like.above,like.handlers,rfl,like.known⟩,like.env,like.releases⟩

theorem recordShapes (shapes : List (String × Shape)) :
    Together σ i C (fun _ _ _ _ _ => True) (recordShapes a shapes) (recordShapes b shapes) n s t := by
  have like := stores.level here
  exact updateLevel stores here (fun _ => rfl) (fun _ => rfl)
    ⟨⟨like.above,like.handlers,like.staging,like.known.setAll shapes⟩,like.env,like.releases⟩

theorem setReleases (releases : List BranchRelease) :
    Together σ i C (fun _ _ _ _ _ => True) (setReleases a releases) (setReleases b releases) n s t := by
  have like := stores.level here
  exact updateLevel stores here (fun _ => rfl) (fun _ => rfl)
    ⟨⟨like.above,like.handlers,like.staging,like.known⟩,like.env,rfl⟩

end

theorem parent (site : Site σ n s t i j) :
    Together σ i (Orderly σ) (fun n' s' t' => Inner σ n' s' t' fun _ => True) (parent i) (parent j) n s t := by
  have above := (stores.level site.levels).above
  unfold Together
  generalize left : (s.levelAt i).parent = up at above
  generalize right : (t.levelAt j).parent = up' at above
  cases above with
  | none =>
    rw [run_parent_none left,run_parent_none right]
    exact fun _ => ⟨_,.raise stores site.levels left,.ok (stores.raised_inner site.levels)⟩
  | @some p q here full upper =>
    rw [run_parent_some left,run_parent_some right]
    refine fun _ => ⟨n,.refl stores,.ok ⟨⟨stores,here,fun r m early _ there => ?_⟩,fun r m early => ?_,
      fun loose => (full loose).1,fun loose x _ => (full loose).2 x⟩⟩
    · exact absurd there (upper r m early).2
    · exact (upper r m early).1
  | @early r m early =>
    rw [run_parent_none left,run_parent_some right]
    intro orderly
    -- a scope that gets a level of its own here does so before the root, which the order rules out
    have root : i = r := by
      by_contra other
      have waits := (site.calm r m early left right).resolve_left other
      have ⟨before,present,_⟩ := (stores.early r m early).levels site.levels
      have old : r ≠ s.levels.size := by omega
      obtain ⟨p,_,risen⟩ := orderly r m early i s.levels.size (by omega)
        (by rw [s.levelAt_raised_old present present.ne,if_pos rfl])
      rw [s.levelAt_raised_old present old,if_neg (Ne.symm other),waits] at risen
      cases risen
    subst root
    obtain ⟨base,pristine⟩ := (stores.early i m early).pristine left
    refine ⟨_,.rise stores early site.levels left right pristine,
      .ok ⟨⟨stores.rise early pristine site.levels right,.inr ⟨rfl,rfl⟩,
        fun r' m' early' _ there => ?_⟩,stores.off,stores.not_loose early,stores.not_loose early⟩⟩
    rw [pristine.level,Level.root_parent] at there
    cases there

end Operations

end Together

end Twin

end StagedLisp
