import StagedLisp.Proofs.Eval.Forms
import StagedLisp.Proofs.Eval.Levels

/-! What evaluation is put together from. A rule reads the store, changes slots, numbers, records or shared
names, opens a scope of a level, asks for the one above, or changes one without moving it in the tower;
and it does nothing with resources. What holds of all these holds of evaluation. -/
namespace StagedLisp

open Eval

def Store.labelled (s : Store) (labels : List String) : Store :=
  { s with arena := { s.arena with resources := labels } }

/-- The store once a level above has been made for one that has none. -/
def Store.raised (s : Store) (i : Nat) : Store :=
  { s.addRoot.2 with
    levels := s.addRoot.2.levels.modify i fun l => { l with parent := some s.levels.size } }

namespace Eval

variable {s : Store} {i : Nat}

theorem run_parent_some {p : Nat} (above : (s.levelAt i).parent = some p) : (parent i).run.run s = (.ok p,s) := by
  unfold parent
  rw [run_bind_ok (show (level i).run.run s = (.ok (s.levelAt i),s) from rfl),above]
  rfl

theorem run_parent_none (above : (s.levelAt i).parent = none) :
    (parent i).run.run s = (.ok s.levels.size,s.raised i) := by
  unfold parent
  rw [run_bind_ok (show (level i).run.run s = (.ok (s.levelAt i),s) from rfl),above]
  rfl

theorem run_adapt {α : Type} (x : Eval α) (f : Error → Error) (s : Store) :
    (x.adapt f).run.run s = (Except.mapError f (x.run.run s).1,(x.run.run s).2) := rfl

end Eval

/-- Computations that are put together in the same way, but call different evaluators. They change known
levels only: those they begin with, scopes and levels above. They may also open a scope of the base. -/
inductive Eval.Parallel (calls : Evaluator → Evaluator → Prop) (base : Nat) :
    (Nat → Prop) → {α : Type} → Eval α → Eval α → Prop where
  | pure {known : Nat → Prop} {α : Type} (a : α) : Parallel calls base known (Pure.pure a) (Pure.pure a)
  | throw {known : Nat → Prop} {α : Type} (e : Error) :
      Parallel calls base known (MonadExcept.throw e : Eval α) (MonadExcept.throw e)
  | bind {known : Nat → Prop} {α β : Type} {x y : Eval α} {f g : α → Eval β} :
      Parallel calls base known x y → (∀ a, Parallel calls base known (f a) (g a)) →
      Parallel calls base known (x >>= f) (y >>= g)
  | adapt {known : Nat → Prop} {α : Type} {x y : Eval α} (f : Error → Error) :
      Parallel calls base known x y → Parallel calls base known (x.adapt f) (y.adapt f)
  | get {known : Nat → Prop} {α : Type} {f g : Store → Eval α} :
      (∀ s, Parallel calls base known (f s) (g s)) → (∀ s labels, f (s.labelled labels) = f s) →
      Parallel calls base known (MonadState.get >>= f) (MonadState.get >>= g)
  | change {known : Nat → Prop} {α : Type} {f : Store → α × Store} : (∀ s, (f s).2.levels = s.levels) →
      (∀ s labels, f (s.labelled labels) = ((f s).1,(f s).2.labelled labels)) →
      Parallel calls base known (modifyGet f : Eval α) (modifyGet f)
  | scope {known : Nat → Prop} {α : Type} {f g : Nat → Eval α} {i : Nat} {env : Env} :
      known i ∨ i = base → (∀ j, Parallel calls base (fun k => k = j ∨ known k) (f j) (g j)) →
      Parallel calls base known (scope i env >>= f) (scope i env >>= g)
  | parent {known : Nat → Prop} {α : Type} {f g : Nat → Eval α} {i : Nat} : known i →
      (∀ p, Parallel calls base (fun k => k = p ∨ known k) (f p) (g p)) →
      Parallel calls base known (parent i >>= f) (parent i >>= g)
  | update {known : Nat → Prop} {i : Nat} {f : Level → Level} : known i → (∀ l, (f l).parent = l.parent) →
      Parallel calls base known (updateLevel i f) (updateLevel i f)
  | call {known : Nat → Prop} {eval eval' : Evaluator} {i : Nat} {e : Value} : calls eval eval' →
      known i → Parallel calls base known (eval i e) (eval' i e)

/-- A computation that is put together like this from evaluations with some property. -/
abbrev Eval.Built (P : Evaluator → Prop) {α : Type} (x : Eval α) : Prop :=
  Parallel (fun eval _ => P eval) 0 (fun _ => True) x x

namespace Eval.Parallel

variable {calls : Evaluator → Evaluator → Prop} {base : Nat} {known : Nat → Prop} {α : Type}

theorem ofResult (r : Result α) : Parallel calls base known (ofResult r) (ofResult r) := by
  cases r with
  | ok a => exact .pure a
  | error e => exact .throw e

theorem fault (cause : Fault) : Parallel calls base known (fault cause : Eval α) (fault cause) :=
  .throw _

theorem ite {c : Prop} [Decidable c] {x x' y y' : Eval α} (yes : Parallel calls base known x x')
    (no : Parallel calls base known y y') :
    Parallel calls base known (if c then x else y) (if c then x' else y') := by
  split
  · exact yes
  · exact no

theorem level (i : Nat) : Parallel calls base known (level i) (level i) :=
  .get (fun _ => .pure _) fun _ _ => rfl

theorem fresh : Parallel calls base known fresh fresh :=
  .change (fun _ => rfl) fun _ _ => rfl

theorem extend (env : Env) (x : String) (v : Value) : Parallel calls base known (extend env x v) (extend env x v) :=
  .change (fun _ => rfl) fun _ _ => rfl

theorem extendAll (env : Env) (entries : List (String × Value)) :
    Parallel calls base known (extendAll env entries) (extendAll env entries) :=
  .change (fun _ => rfl) fun _ _ => rfl

theorem value? (env : Env) (x : String) : Parallel calls base known (value? env x) (value? env x) :=
  .get (fun _ => .pure _) fun _ _ => rfl

theorem assign (env : Env) (x : String) (v : Value) :
    Parallel calls base known (assign env x v) (assign env x v) := by
  refine .change (fun s => ?_) fun s labels => ?_
  · unfold Env.assign?
    cases env.slot? x <;> rfl
  · unfold Env.assign?
    cases env.slot? x <;> rfl

theorem reference (x : String) : Parallel calls base known (reference x) (reference x) := by
  refine .change (fun _ => rfl) fun s labels => ?_
  unfold Store.labelled Arena.intern
  dsimp only
  split <;> rfl

theorem primitive (op : Primitive) (args : List Value) :
    Parallel calls base known (primitive op args) (primitive op args) := by
  refine .get (fun s => .bind (.ofResult _) fun result => ?_) fun _ _ => rfl
  exact .bind (.change (fun _ => rfl) fun _ _ => rfl) fun _ => .pure _

theorem withDrops (i : Nat) (e : Value) (branch : Nat) (c : Code) :
    Parallel calls base known (withDrops i e branch c) (withDrops i e branch c) := by
  unfold Eval.withDrops
  split
  · exact .pure _
  · refine .bind (.level i) fun l => ?_
    split <;> exact .pure _

theorem variableRule (i : Nat) (e : Value) : Parallel calls base known (variableRule i e) (variableRule i e) := by
  unfold Eval.variableRule
  split
  · exact .fault _
  · refine .bind (.level i) fun l => .bind (.value? _ _) fun found => ?_
    split
    · exact .pure _
    · exact .fault _

theorem lambdaForm (i : Nat) (parts : List Value) :
    Parallel calls base known (lambdaForm i parts) (lambdaForm i parts) := by
  refine .bind (.ofResult _) fun both => ?_
  dsimp only
  split
  · exact .fault _
  · refine .bind (.ofResult _) fun _ => .bind .fresh fun _ => ?_
    exact .bind (.level i) fun _ => .pure _

theorem levelForm (i : Nat) (parts : List Value) :
    Parallel calls base known (levelForm i parts) (levelForm i parts) := by
  unfold Eval.levelForm
  split
  · exact .pure _
  · exact .fault _

theorem deftypeForm (parts : List Value) : Parallel calls base known (deftypeForm parts) (deftypeForm parts) := by
  unfold Eval.deftypeForm
  split
  · refine .bind (.ofResult _) fun fields => .bind ?_ fun _ => .pure _
    refine .get (fun s => ?_) fun _ _ => rfl
    exact .bind (.ofResult _) fun _ => .change (fun _ => rfl) fun _ _ => rfl
  · exact .fault _

theorem assignEach (env : Env) (entries : List (String × Value)) :
    Parallel calls base known (assignEach env entries) (assignEach env entries) := by
  induction entries with
  | nil => exact .pure _
  | cons entry entries ih =>
    rw [assignEach_cons]
    exact .bind (.assign _ _ _) fun _ => ih

theorem referEach (env : Env) (bindings : List Binding) :
    Parallel calls base known (referEach env bindings) (referEach env bindings) := by
  induction bindings generalizing env with
  | nil => exact .pure _
  | cons b rest ih => exact .bind (.reference _) fun _ => .bind (.extend _ _ _) fun _ => ih _

theorem store (env : Env) (x : String) (old v : Value) :
    Parallel calls base known (store env x old v) (store env x old v) := by
  unfold Eval.store
  split
  · exact .bind (.ofResult _) fun _ => .pure _
  · exact .pure _
  · exact .bind (.assign _ _ _) fun _ => .pure _

section Levels

variable {i : Nat} (near : known i)

include near

theorem define (x : String) (v : Value) : Parallel calls base known (define i x v) (define i x v) := by
  refine .bind (.level i) fun l => .bind (.extend _ _ _) fun env => ?_
  exact .update near fun _ => rfl

theorem refer (entries : List (String × Value)) :
    Parallel calls base known (refer i entries) (refer i entries) := by
  induction entries with
  | nil => exact .pure _
  | cons entry entries ih =>
    rw [refer_cons]
    refine .bind (.ite ?_ (.pure _)) fun _ => ih
    exact .bind (.reference _) fun _ => .define near _ _

end Levels

section Rules

variable {eval eval' reflected reflected' : Evaluator} (call : calls eval eval') {i : Nat} (near : known i)

include call near

theorem each (es : List Value) : Parallel calls base known (eval.each i es) (eval'.each i es) := by
  induction es with
  | nil => exact .pure _
  | cons e es ih => exact .bind (.call call near) fun _ => .bind ih fun _ => .pure _

theorem applyTo (procedure : Value) (args : List Value) :
    Parallel calls base known (applyTo eval i procedure args) (applyTo eval' i procedure args) := by
  cases procedure with
  | prim op => exact .primitive op args
  | closure id params body env =>
    refine .bind (.extendAll _ _) fun env => .scope (.inl near) fun inner => ?_
    exact .adapt _ (.call call (.inl rfl))
  | _ => exact .fault _

theorem callRule (e : Value) : Parallel calls base known (callRule eval i e) (callRule eval' i e) := by
  unfold Eval.callRule
  split
  · exact .fault _
  · exact .fault _
  · refine .bind (.call call near) fun _ => .bind (.each call near _) fun _ => ?_
    exact .applyTo call near _ _

theorem branch (part : Option Value) : Parallel calls base known (branch eval i part) (branch eval' i part) := by
  cases part with
  | none => exact .pure _
  | some e => exact .call call near

theorem bothBranches (e onTrue : Value) (onFalse : Option Value) (test : Code) :
    Parallel calls base known (bothBranches eval i e onTrue onFalse test)
      (bothBranches eval' i e onTrue onFalse test) := by
  refine .bind (.call call near) fun _ => .bind (.ofResult _) fun _ => ?_
  refine .bind (.branch call near onFalse) fun _ => .bind (.ofResult _) fun _ => ?_
  exact .bind (.withDrops _ _ _ _) fun _ => .bind (.withDrops _ _ _ _) fun _ => .pure _

theorem conditional (e test onTrue : Value) (onFalse : Option Value) :
    Parallel calls base known (conditional eval i e test onTrue onFalse)
      (conditional eval' i e test onTrue onFalse) := by
  rw [conditional_step,conditional_step]
  refine .bind (.call call near) fun v => ?_
  cases v.code? with
  | none => exact .ite (.call call near) (.branch call near onFalse)
  | some c => exact .bothBranches call near e onTrue onFalse c

theorem ifRule (e : Value) : Parallel calls base known (ifRule eval i e) (ifRule eval' i e) := by
  refine .bind (.ofResult _) fun parts => ?_
  split
  · exact .conditional call near _ _ _ _
  · exact .conditional call near _ _ _ _
  · exact .fault _

theorem compileBlock (form : LetForm) (values : List Value) :
    Parallel calls base known (compileBlock eval form values i) (compileBlock eval' form values i) := by
  refine .get (fun s => .bind (.level i) fun l => ?_) fun _ _ => rfl
  refine .bind (.update near fun _ => rfl) fun _ => .bind (.update near fun _ => rfl) fun _ => ?_
  exact .bind (.call call near) fun _ => .bind (.ofResult _) fun _ => .pure _

theorem bindEach (done : List (String × Value)) (staged : Bool) (bindings : List Binding) :
    Parallel calls base known (bindEach eval i done staged bindings) (bindEach eval' i done staged bindings) := by
  induction bindings generalizing done staged with
  | nil => exact .pure _
  | cons b rest ih =>
    rw [bindEach_step,bindEach_step]
    refine .bind (.call call near) fun v => .bind (.ite (.refer near done) (.pure _)) fun _ => ?_
    refine .bind (.ite (.reference _) (.pure _)) fun _ => ?_
    exact .bind (.define near _ _) fun _ => ih _ _

section

variable (parts : List Value)

include parts

theorem liftForm : Parallel calls base known (liftForm eval i parts) (liftForm eval' i parts) := by
  refine .bind (.ofResult _) fun e => .bind (.call call near) fun v => ?_
  refine .bind (.level i) fun l => .ite (.pure _) ?_
  exact .bind (.ofResult _) fun _ => .pure _

theorem metaForm : Parallel calls base known (metaForm eval i parts) (metaForm eval' i parts) :=
  .bind (.ofResult _) fun _ => .parent near fun _ => .call call (.inl rfl)

omit parts in
theorem setMeta (x : String) (e : Value) :
    Parallel calls base known (setMeta eval i x e) (setMeta eval' i x e) := by
  unfold Eval.setMeta
  cases Rule.ofName? x with
  | none => exact .bind (.call call near) fun _ => .define near x _
  | some rule =>
    refine .ite (.update near fun _ => rfl) (.bind (.call call near) fun _ => ?_)
    exact .ite (.update near fun _ => rfl) (.fault _)

theorem setMetaForm : Parallel calls base known (setMetaForm eval i parts) (setMetaForm eval' i parts) := by
  rcases target_cases parts with ⟨x,e,rfl⟩ | ⟨_,e,refused⟩
  · rw [setMetaForm_step,setMetaForm_step]
    exact .bind (.setMeta call near x e) fun _ => .pure _
  · rw [refused,refused]
    exact .ofResult _

theorem scanForm : Parallel calls base known (scanForm eval i parts) (scanForm eval' i parts) := by
  unfold Eval.scanForm
  split
  · refine .get (fun _ => .ite ?_ (.fault _)) fun _ _ => rfl
    exact .bind (.call call near) fun _ => .bind (.ofResult _) fun _ => .pure _
  · exact .bind (.call call near) fun _ => .bind (.ofResult _) fun _ => .pure _
  · exact .fault _

theorem setForm : Parallel calls base known (setForm eval i parts) (setForm eval' i parts) := by
  rcases target_cases parts with ⟨x,e,rfl⟩ | ⟨⟨e,refused⟩,_⟩
  · rw [setForm_step,setForm_step]
    refine .bind (.call call near) fun v => .bind (.level i) fun l => ?_
    refine .bind (.value? _ _) fun old => ?_
    cases old with
    | none => exact .fault _
    | some old => exact .store _ _ _ _
  · rw [refused,refused]
    exact .ofResult _

theorem freezeForm : Parallel calls base known (freezeForm eval i parts) (freezeForm eval' i parts) := by
  refine .bind (.ofResult _) fun e => .bind (.call call near) fun v => ?_
  split <;> exact .pure _

end

/-! Forms that are evaluated in a scope of the level. -/

section Scoped

variable (outer : known i ∨ i = base)

omit near
include outer

theorem plainLet (form : LetForm) (staged : Bool) : Parallel calls base known (plainLet eval form i staged)
      (plainLet eval' form i staged) := by
  refine .bind (.level i) fun l => .scope outer fun inner => ?_
  refine .bind (.bindEach call (.inl rfl) _ _ _) fun result => ?_
  exact .ite (.compileBlock call (.inl rfl) form _) (.call call (.inl rfl))

theorem compileRecursive (form : LetForm) : Parallel calls base known (compileRecursive eval form i)
      (compileRecursive eval' form i) := by
  refine .bind (.level i) fun l => .bind (.referEach _ _) fun env => .scope outer fun inner => ?_
  exact .bind (.each call (.inl rfl) _) fun _ => .compileBlock call (.inl rfl) form _

theorem recursiveLet (form : LetForm) :
    Parallel calls base known (recursiveLet eval form i) (recursiveLet eval' form i) := by
  refine .bind (.level i) fun l => .bind (.extendAll _ _) fun env => .scope outer fun inner => ?_
  refine .bind (.each call (.inl rfl) _) fun _ => ?_
  refine .ite (.compileRecursive call (outer.imp_left .inr) form) ?_
  exact .bind (.assignEach env _) fun _ => .call call (.inl rfl)

theorem letRule (e : Value) : Parallel calls base known (letRule eval i e) (letRule eval' i e) :=
  .bind (.ofResult _) fun form => .plainLet call outer form false

theorem letrecForm (parts : List Value) :
    Parallel calls base known (letrecForm eval i parts) (letrecForm eval' i parts) :=
  .bind (.ofResult _) fun form => .recursiveLet call outer form

theorem runForm (parts : List Value) :
    Parallel calls base known (runForm eval i parts) (runForm eval' i parts) := by
  refine .bind (.ofResult _) fun e => .bind (.level i) fun l => .scope outer fun inner => ?_
  exact .bind (.update (.inl rfl) fun _ => rfl) fun _ => .call call (.inl rfl)

end Scoped

variable (base) in
theorem fixedRule (keyword : String) :
    Option.Rel (fun rule rule' => ∀ parts, Parallel calls base known (rule parts) (rule' parts))
      (fixedRule? eval i keyword) (fixedRule? eval' i keyword) := by
  unfold fixedRule?
  split
  · exact .some fun _ => .ofResult _
  · exact .some (liftForm call near)
  · exact .some (lambdaForm i)
  · exact .some (metaForm call near)
  · exact .some (setMetaForm call near)
  · exact .some (scanForm call near)
  · exact .some (letrecForm call (.inl near))
  · exact .some (setForm call near)
  · exact .some (runForm call (.inl near))
  · exact .some deftypeForm
  · exact .some (freezeForm call near)
  · exact .some (levelForm i)
  · exact .none

variable (reflects : calls reflected reflected')

include reflects

omit call in
theorem dispatch {native native' : Eval Value}
    (natively : Parallel calls base known native native') (rule : Rule) (e : Value) :
    Parallel calls base known (dispatch rule native reflected i e) (dispatch rule native' reflected' i e) := by
  refine .bind (.level i) fun l => ?_
  cases l.handlers.get rule with
  | native => exact natively
  | reflected => exact .parent near fun above => .applyTo reflects (.inl rfl) _ _

theorem evalForm (e : Value) : Parallel calls base known (StagedLisp.evalForm eval reflected i e)
      (StagedLisp.evalForm eval' reflected' i e) := by
  unfold StagedLisp.evalForm
  split
  · exact .dispatch near reflects (.letRule call (.inl near) e) _ _
  · exact .dispatch near reflects (.ifRule call near e) _ _
  · cases e.headSymbol? with
    | none => exact .dispatch near reflects (.callRule call near e) _ _
    | some keyword =>
      rw [Option.bind_some,Option.bind_some]
      have rules := fixedRule base call near keyword
      generalize fixedRule? eval i keyword = rule, fixedRule? eval' i keyword = rule' at rules ⊢
      cases rules with
      | some each => exact .bind (.ofResult _) each
      | none => exact .dispatch near reflects (.callRule call near e) _ _

theorem evalStep (e : Value) : Parallel calls base known (StagedLisp.evalStep eval reflected i e)
      (StagedLisp.evalStep eval' reflected' i e) := by
  cases e with
  | int | nil => exact .dispatch near reflects (.pure _) _ _
  | sym => exact .dispatch near reflects (.variableRule i _) _ _
  | pair => exact .adapt _ (.evalForm call near reflects _)
  | _ => exact .pure _

end Rules

end Eval.Parallel

end StagedLisp
