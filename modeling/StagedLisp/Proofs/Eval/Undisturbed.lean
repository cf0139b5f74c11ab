import StagedLisp.Proofs.Eval.Parallel

/-! Evaluation at a level changes that level, levels above it and new ones. What it does to a store
is a sequence of steps, each of which adds a level or changes one within reach. Levels out of reach
stay as they are, and no level comes to be above itself. -/
namespace StagedLisp

open Eval Array

namespace Store

def Beneath (reach : Nat → Prop) (s : Store) (i : Nat) : Prop :=
  ∀ p, (s.levelAt i).parent = some p → reach p ∧ p < s.levels.size

/-- One change of a store. Levels other than those within reach are only added, and only a level
with nothing above it is put above another. -/
inductive Step (reach : Nat → Prop) : Store → Store → Prop where
  | data {s t} : t.levels = s.levels → Step reach s t
  | add {s l} : (∀ p, l.parent = some p → reach p ∧ p < s.levels.size) →
      Step reach s { s with levels := s.levels.push l }
  | change {s i f} : reach i → i < s.levels.size →
      (∀ l, (f l).parent = l.parent) → Step reach s { s with levels := s.levels.modify i f }
  | link {s i p} : reach i → i < s.levels.size → reach p → p < s.levels.size → i ≠ p → (s.levelAt p).parent = none →
      Step reach s { s with levels := s.levels.modify i fun l => { l with parent := some p } }

def Moves (reach : Nat → Prop) : Store → Store → Prop := Relation.ReflTransGen (Step reach)

theorem Tower.congr {s t : Store} (tower : s.Tower) (count : t.levels.size = s.levels.size)
    (same : ∀ i, (t.levelAt i).parent = (s.levelAt i).parent) : t.Tower where
  inside i p parent := by
    rw [count]
    exact tower.inside i p (same i ▸ parent)
  founded i above := by
    refine tower.founded i ?_
    unfold Above at above ⊢
    simpa only [same] using above

theorem Tower.add {s : Store} (tower : s.Tower) {l : Level} (inside : ∀ p, l.parent = some p → p < s.levels.size) :
    Tower { s with levels := s.levels.push l } := by
  have edge {i p : Nat} (parent : (levelAt { s with levels := s.levels.push l } i).parent = some p) :
      p < s.levels.size ∧ (i = s.levels.size ∨ (s.levelAt i).parent = some p) := by
    rw [levelAt_push] at parent
    split at parent
    · next new => exact ⟨inside p parent,.inl new⟩
    · exact ⟨tower.inside i p parent,.inr parent⟩
  -- Nothing leads to the new level, so a path can only begin there.
  have path {i p : Nat} (above : Above { s with levels := s.levels.push l } i p) :
      p < s.levels.size ∧ (i = s.levels.size ∨ s.Above i p) := by
    induction above with
    | single parent => exact (edge parent).imp_right (.imp_right .single)
    | tail _ parent ih =>
      obtain ⟨below,old⟩ := edge parent
      have old := old.resolve_left ih.1.ne
      exact ⟨below,ih.2.imp_right fun above => above.tail old⟩
  refine ⟨fun i p parent => ?_,fun i above => ?_⟩
  · rw [size_push]
    exact Nat.lt_succ_of_lt (edge parent).1
  · obtain ⟨below,new | old⟩ := path above
    · exact below.ne new
    · exact tower.founded i old

theorem Tower.link {s : Store} (tower : s.Tower) {i p : Nat} (present : i < s.levels.size)
    (inside : p < s.levels.size) (other : i ≠ p) (top : (s.levelAt p).parent = none) :
    Tower { s with levels := s.levels.modify i fun l => { l with parent := some p } } := by
  have edge {j q : Nat} (parent : (levelAt { s with
        levels := s.levels.modify i fun l => { l with parent := some p } } j).parent = some q) :
      j ≠ p ∧ (q = p ∨ (s.levelAt j).parent = some q) := by
    rw [levelAt_modify s i j _ present] at parent
    split at parent
    · next here =>
      subst here
      exact ⟨other,.inl (Option.some.inj parent).symm⟩
    · refine ⟨fun same => ?_,.inr parent⟩
      cases (same ▸ top).symm.trans parent
  -- Nothing leads on from the level on top, so a path can only end there.
  have path {j q : Nat} (above : Above { s with
        levels := s.levels.modify i fun l => { l with parent := some p } } j q) :
      j ≠ p ∧ (q = p ∨ s.Above j q) := by
    induction above with
    | single parent => exact (edge parent).imp_right (.imp_right .single)
    | tail _ parent ih =>
      obtain ⟨apart,last⟩ := edge parent
      exact ⟨ih.1,last.imp_right fun old => (ih.2.resolve_left apart).tail old⟩
  refine ⟨fun j q parent => ?_,fun j above => ?_⟩
  · rw [size_modify]
    rcases (edge parent).2 with rfl | old
    · exact inside
    · exact tower.inside j q old
  · obtain ⟨apart,same | old⟩ := path above
    · exact apart same
    · exact tower.founded j old

section Steps

variable {reach : Nat → Prop} {s t : Store} {i : Nat}

theorem Step.grows (step : Step reach s t) : s.levels.size ≤ t.levels.size := by
  cases step with
  | data same => exact Nat.le_of_eq (by rw [same])
  | add => simp
  | change | link => exact size_modify.ge

theorem Step.beneath (step : Step reach s t) (beneath : s.Beneath reach i) : t.Beneath reach i := by
  intro p parent
  cases step with
  | data same =>
    rw [levelAt_congr same] at parent
    rw [same]
    exact beneath p parent
  | add fits =>
    rw [levelAt_push] at parent
    have here : reach p ∧ p < s.levels.size := by
      split at parent
      · exact fits p parent
      · exact beneath p parent
    exact ⟨here.1,by rw [size_push]; exact Nat.lt_succ_of_lt here.2⟩
  | change _ present same =>
    rw [levelAt_modify s _ i _ present] at parent
    rw [size_modify]
    split at parent
    · exact beneath p (same _ ▸ parent)
    · exact beneath p parent
  | link _ present near inside =>
    rw [levelAt_modify s _ i _ present] at parent
    rw [size_modify]
    split at parent
    · exact Option.some.inj parent ▸ ⟨near,inside⟩
    · exact beneath p parent

theorem Step.untouched (step : Step reach s t) (out : ¬ reach i) (old : i < s.levels.size) :
    t.levels[i]? = s.levels[i]? := by
  cases step with
  | data same => rw [same]
  | add => exact (getElem?_push_lt old).trans (getElem?_eq_getElem old).symm
  | change near | link near =>
    rw [getElem?_modify,if_neg]
    rintro rfl
    exact out near

theorem Step.tower (step : Step reach s t) (tower : s.Tower) : t.Tower := by
  cases step with
  | data same => exact tower.congr (by rw [same]) fun i => by rw [levelAt_congr same]
  | add fits => exact tower.add fun p parent => (fits p parent).2
  | change _ present same =>
    refine tower.congr size_modify fun i => ?_
    rw [levelAt_modify s _ i _ present]
    split
    · exact same _
    · rfl
  | link _ present _ inside other top => exact tower.link present inside other top

theorem addRoot_parent (s : Store) : (s.addRoot.2.levelAt s.addRoot.1).parent = none := by
  show (levelAt { s with slots := _, levels := s.levels.push _ } s.levels.size).parent = none
  rw [levelAt_push { s with slots := _ },if_pos rfl]

theorem moves_addRoot (s : Store) : s.Moves reach s.addRoot.2 :=
  .head (.data (t := { s with slots := (Env.primitives s.slots).2 }) rfl) (.single (.add nofun))

variable (moves : s.Moves reach t)

include moves

theorem Moves.grows : s.levels.size ≤ t.levels.size := by
  induction moves with
  | refl => exact le_rfl
  | tail _ step ih => exact ih.trans step.grows

theorem Moves.beneath (beneath : s.Beneath reach i) : t.Beneath reach i := by
  induction moves with
  | refl => exact beneath
  | tail _ step ih => exact step.beneath ih

theorem Moves.untouched (out : ¬ reach i) (old : i < s.levels.size) : t.levels[i]? = s.levels[i]? := by
  induction moves with
  | refl => rfl
  | tail moves step ih =>
    exact (step.untouched out (old.trans_le (Moves.grows moves))).trans ih

theorem Moves.tower (tower : s.Tower) : t.Tower := by
  induction moves with
  | refl => exact tower
  | tail _ step ih => exact step.tower ih

end Steps

/-- The level is there, with what is above it within reach. So is what is above any level within
reach, and so are the levels still to come. -/
structure Seats (reach : Nat → Prop) (s : Store) (i : Nat) : Prop where
  present : i < s.levels.size
  beneath : s.Beneath reach i
  closed : ∀ j, reach j → s.Beneath reach j
  later : ∀ j, s.levels.size ≤ j → reach j

variable {reach : Nat → Prop} {s t : Store} {i : Nat}

theorem Seats.moves (seats : s.Seats reach i) (moves : s.Moves reach t) : t.Seats reach i where
  present := seats.present.trans_le moves.grows
  beneath := moves.beneath seats.beneath
  closed j near := moves.beneath (seats.closed j near)
  later j beyond := seats.later j (moves.grows.trans beyond)

theorem Seats.at (seats : s.Seats reach i) {j : Nat} (near : reach j)
    (present : j < s.levels.size) : s.Seats reach j :=
  ⟨present,seats.closed j near,seats.closed,seats.later⟩

end Store

def Eval.Within {α : Type} (reach : Nat → Prop) (s : Store) (x : Eval α) : Prop :=
  s.Moves reach (x.run.run s).2

namespace Eval.Within

variable {reach : Nat → Prop} {s : Store} {i : Nat} {α β : Type} {x y : Eval α} {f : α → Eval β}

theorem data (same : (x.run.run s).2.levels = s.levels) : Within reach s x := .single (.data same)

theorem bind (first : Within reach s x)
    (next : ∀ a t, s.Moves reach t → Within reach t (f a)) : Within reach s (x >>= f) := by
  unfold Within at first ⊢
  generalize ran : x.run.run s = after at first
  obtain ⟨result,t⟩ := after
  cases result with
  | ok a =>
    rw [run_bind_ok ran]
    exact first.trans (next a t first)
  | error e =>
    rw [run_bind_error ran]
    exact first

theorem level {f : Level → Eval β} (next : Within reach s (f (s.levelAt i))) :
    Within reach s (level i >>= f) := next

theorem scope {f : Nat → Eval β} (seats : s.Seats reach i) (env : Env)
    (next : ∀ j t, s.Moves reach t → reach j → t.Seats reach j → Within reach t (f j)) :
    Within reach s (scope i env >>= f) := by
  have moves : s.Moves reach { s with levels := s.levels.push ((s.levelAt i).scope env) } :=
    .single (.add seats.beneath)
  have near := seats.later s.levels.size le_rfl
  exact moves.trans (next _ _ moves near ((seats.moves moves).at near (by simp)))

theorem updateLevel (near : reach i) (present : i < s.levels.size) {g : Level → Level}
    (same : ∀ l, (g l).parent = l.parent) : Within reach s (updateLevel i g) :=
  .single (.change near present same)

theorem parent {f : Nat → Eval β} (near : reach i) (seats : s.Seats reach i)
    (next : ∀ p t, s.Moves reach t → reach p → t.Seats reach p → Within reach t (f p)) :
    Within reach s (parent i >>= f) := by
  rw [Eval.parent,bind_assoc]
  refine level ?_
  cases found : (s.levelAt i).parent with
  | some p =>
    obtain ⟨above,present⟩ := seats.beneath p found
    exact next p s .refl above (seats.at above present)
  | none =>
    have root : s.Moves reach s.addRoot.2 := s.moves_addRoot
    have new := seats.later s.levels.size le_rfl
    have inside : s.levels.size < s.addRoot.2.levels.size := by simp [Store.addRoot,Store.addLevel]
    have linked := root.tail (.link near (seats.moves root).present new inside seats.present.ne s.addRoot_parent)
    refine linked.trans (next _ _ linked new ((seats.moves linked).at new ?_))
    exact Nat.lt_of_lt_of_eq inside size_modify.symm

end Eval.Within

def Evaluator.Bounded (reach : Nat → Prop) (eval : Evaluator) : Prop :=
  ∀ (s : Store) i e, reach i → s.Seats reach i → Within reach s (eval i e)

variable {reach : Nat → Prop} {s : Store} {i : Nat}

theorem Eval.Within.of_parallel {known : Nat → Prop} {base : Nat} {α : Type} {x y : Eval α}
    (parallel : Parallel (fun eval _ => eval.Bounded reach) base known x y)
    (outer : s.Seats reach base) (inner : ∀ k, known k → reach k ∧ s.Seats reach k) :
    Within reach s x := by
  have later {known : Nat → Prop} {s t : Store} (inner : ∀ k, known k → reach k ∧ s.Seats reach k)
      (moves : s.Moves reach t) : ∀ k, known k → reach k ∧ t.Seats reach k :=
    fun k here => (inner k here).imp_right (·.moves moves)
  induction parallel generalizing s with
  | pure | throw => exact .refl
  | bind _ _ first next =>
    exact (first outer inner).bind fun a t moves => next a (outer.moves moves) (later inner moves)
  | adapt f _ ih => exact ih outer inner
  | get _ _ ih => exact ih s outer inner
  | change same => exact .data (same s)
  | @scope _ _ _ _ i _ here _ ih =>
    have stands : s.Seats reach i := here.elim (fun here => (inner i here).2) fun same => same ▸ outer
    refine .scope stands _ fun j t moves near seats => ih j (outer.moves moves) ?_
    rintro k (rfl | here)
    · exact ⟨near,seats⟩
    · exact later inner moves k here
  | @parent _ _ _ _ i here _ ih =>
    refine .parent (inner i here).1 (inner i here).2 fun p t moves near seats => ?_
    refine ih p (outer.moves moves) ?_
    rintro k (rfl | here)
    · exact ⟨near,seats⟩
    · exact later inner moves k here
  | update here same => exact .updateLevel (inner _ here).1 (inner _ here).2.present same
  | call bounded here => exact bounded s _ _ (inner _ here).1 (inner _ here).2

def Value.OpensScope (e : Value) : Prop :=
  ∃ keyword ∈ ["let","letrec","run"], e.headSymbol? = some keyword

theorem Eval.Within.scoped (seats : s.Seats reach i) {α : Type} {x : Eval α}
    (parallel : Parallel (fun eval _ => eval.Bounded reach) i (fun _ => False) x x) :
    Within reach s x :=
  .of_parallel parallel seats fun _ => False.elim

section Evaluators

variable {reach : Nat → Prop} {eval reflected : Evaluator} (bounded : eval.Bounded reach)

include bounded

theorem evalStep_bounded (reflects : reflected.Bounded reach) : (evalStep eval reflected).Bounded reach := by
  intro s i e near seats
  have step : Parallel (fun eval _ => eval.Bounded reach) i (Eq i)
      (evalStep eval reflected i e) (evalStep eval reflected i e) :=
    .evalStep bounded rfl reflects e
  exact .of_parallel step seats fun k same => same ▸ ⟨near,seats⟩

/-- Forms that act on a scope of the level leave the level itself alone, within reach or not. -/
theorem evalStep_scoped (seats : s.Seats reach i)
    (native : (s.levelAt i).handlers.get .letForm = .native) {e : Value} (opens : e.OpensScope) :
    Within reach s (evalStep eval reflected i e) := by
  have form : Within reach s (evalForm eval reflected i e) := by
    obtain ⟨keyword,listed,head⟩ := opens
    simp only [List.mem_cons,List.not_mem_nil,or_false] at listed
    rcases listed with rfl | rfl | rfl
    · rw [evalForm_let _ _ _ head]
      refine .level ?_
      rw [native]
      exact .scoped seats (.letRule bounded (.inr rfl) e)
    · rw [evalForm_fixed _ _ _ head rfl]
      exact .scoped seats (.bind (.ofResult _) (.letrecForm bounded (.inr rfl)))
    · rw [evalForm_fixed _ _ _ head rfl]
      exact .scoped seats (.bind (.ofResult _) (.runForm bounded (.inr rfl)))
  cases e with
  | pair => exact form
  | _ =>
    obtain ⟨_,_,none⟩ := opens
    cases none

end Evaluators

theorem eval_bounded (reach : Nat → Prop) (fuel : Nat) : (eval fuel).Bounded reach :=
  eval_of_step (fun _ _ _ _ _ => .refl) evalStep_bounded fuel

theorem eval_scoped (seats : s.Seats reach i)
    (native : (s.levelAt i).handlers.get .letForm = .native) {e : Value} (opens : e.OpensScope)
    (fuel : Nat) : Within reach s (eval fuel i e) := by
  cases fuel with
  | zero => exact .refl
  | succ fuel =>
    rw [eval_succ]
    exact evalStep_scoped (eval_bounded reach fuel) seats native opens

theorem compile_within (seats : s.Seats reach i) (e : Value) : Within reach s (compile i e) := by
  have bounded := eval_bounded reach (depthLimit - 1)
  refine .scoped seats (.bind (.ofResult _) fun form => ?_)
  split
  · exact .plainLet bounded (.inr rfl) form true
  · exact .compileRecursive bounded (.inr rfl) form

/-- The stores of sessions. Levels are made as roots, as scopes of others and by going up, and are
changed by evaluation, by compilation and from outside. Slots, cells, records and options are
changed at will. -/
inductive Store.Arises : Store → Prop where
  | start : Arises {}
  | data {s t : Store} : s.Arises → t.levels = s.levels → Arises t
  | root {s : Store} : s.Arises → Arises s.addRoot.2
  | scope {s : Store} {i : Nat} (env : Env) : s.Arises → i < s.levels.size → Arises ((scope i env).run.run s).2
  | parent {s : Store} {i : Nat} : s.Arises → i < s.levels.size → Arises ((parent i).run.run s).2
  | change {s : Store} {i : Nat} (f : Level → Level) : s.Arises → i < s.levels.size →
      (∀ l, (f l).parent = l.parent) → Arises ((updateLevel i f).run.run s).2
  | eval {s : Store} {i : Nat} (fuel : Nat) (e : Value) : s.Arises → i < s.levels.size →
      Arises ((StagedLisp.eval fuel i e).run.run s).2
  | compile {s : Store} {i : Nat} (e : Value) : s.Arises → i < s.levels.size →
      Arises ((StagedLisp.compile i e).run.run s).2

namespace Store

variable {s : Store} {m : Nat}

theorem Tower.seats (tower : s.Tower) (present : m < s.levels.size) : s.Seats (fun _ => True) m :=
  ⟨present,fun p parent => ⟨trivial,tower.inside m p parent⟩,
    fun j _ p parent => ⟨trivial,tower.inside j p parent⟩,fun _ _ => trivial⟩

theorem Tower.seats_beneath (tower : s.Tower) (present : m < s.levels.size) : s.Seats (s.Reaches m) m where
  present := present
  beneath p parent := ⟨.inr (.single parent),tower.inside m p parent⟩
  closed j reached p parent := ⟨.inr (reached.above parent),tower.inside j p parent⟩
  later _ beyond := .inl beyond

theorem Arises.tower (arises : s.Arises) : s.Tower := by
  have moved {t u : Store} (tower : t.Tower) (moves : t.Moves (fun _ => True) u) : u.Tower := moves.tower tower
  induction arises with
  | start =>
    refine ⟨fun i p parent => ?_,fun i above => ?_⟩
    · cases parent
    · obtain ⟨p,parent,_⟩ := Relation.TransGen.head'_iff.mp above
      cases parent
  | data _ same tower => exact moved tower (.single (.data same))
  | root _ tower => exact moved tower (Store.moves_addRoot _)
  | scope env _ present tower => exact moved tower (.single (.add (tower.seats present).beneath))
  | parent _ present tower =>
    have within := Within.parent (f := pure) trivial (tower.seats present) fun _ _ _ _ _ => .refl
    rw [bind_pure] at within
    exact moved tower within
  | change f _ present same tower =>
    exact moved tower (Within.updateLevel trivial present same)
  | eval fuel e _ present tower =>
    exact moved tower (eval_bounded _ fuel _ _ e trivial (tower.seats present))
  | compile e _ present tower => exact moved tower (compile_within (tower.seats present) e)

end Store

/-- Scoped forms do not disturb their level. Whatever a `let`, `letrec` or `run` form evaluates and
however that ends, the level it is evaluated at stays as it is, and so does every other level that
is not above it. The rule for `let` has to be native: a procedure in its place runs one level up,
and that level may have to be made first. -/
theorem scoped_form_undisturbed {s : Store} (arises : s.Arises) {m : Nat}
    (present : m < s.levels.size) (native : (s.levelAt m).handlers.get .letForm = .native)
    {e : Value} (opens : e.OpensScope)
    (fuel : Nat) :
    ((eval fuel m e).run.run s).2.levels[m]? = s.levels[m]? ∧
      ∀ i < s.levels.size, ¬ s.Above m i →
        ((eval fuel m e).run.run s).2.levels[i]? = s.levels[i]? := by
  have tower := arises.tower
  have within := eval_scoped (tower.seats_beneath present) native opens fuel
  have others (i : Nat) (old : i < s.levels.size) (apart : ¬ s.Above m i) :
      ((eval fuel m e).run.run s).2.levels[i]? = s.levels[i]? := by
    refine Store.Moves.untouched within ?_ old
    rintro (beyond | above)
    · exact not_lt.mpr beyond old
    · exact apart above
  exact ⟨others m present (tower.founded m),others⟩

def twoLevels : Store := ((parent 0).run.run (Store.addRoot {}).2).2

def reachingUp : Value :=
  .pair 0 (.sym "let") (.pair 1 (.pair 2 (.pair 3 (.sym "x") (.pair 4 (.int 1) .nil)) .nil)
    (.pair 5 (.pair 6 (.sym "EM") (.pair 7 (.pair 8 (.sym "set-meta!") (.pair 9 (.sym "if")
      (.pair 10 (.sym "car") .nil))) .nil)) .nil))

theorem reachingUp_undisturbed :
    let after := ((eval 9 0 reachingUp).run.run twoLevels).2
    twoLevels.Arises ∧ (twoLevels.levelAt 0).handlers.get .letForm = .native ∧
      reachingUp.OpensScope ∧ (twoLevels.levelAt 1).handlers.get .ifForm = .native ∧
      (after.levelAt 1).handlers.get .ifForm = .reflected (.prim .car) ∧
      after.levels[0]? = twoLevels.levels[0]? := by
  intro after
  have arises : twoLevels.Arises := .parent (.root .start) (by decide)
  have opens : reachingUp.OpensScope := ⟨"let",by decide,rfl⟩
  exact ⟨arises,rfl,opens,rfl,rfl,
    (scoped_form_undisturbed arises (by decide) rfl opens 9).1⟩

end StagedLisp
