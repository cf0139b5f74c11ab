import StagedLisp.Proofs.Eval.Compilation
import StagedLisp.Proofs.Eval.Parallel

/-! How often a recursive form evaluates its initialisers. A form that turns out to be staged is evaluated
a second time from the first initialiser on, in the store that the first evaluations have left. To tell
which expressions are evaluated, each one is noted among the resources, which evaluation neither reads nor
changes. -/
namespace StagedLisp

open Value Binding

def Evaluator.noting (eval : Evaluator) : Evaluator := fun level expr => do
  modify fun s => { s with arena := s.arena.register expr.text }
  eval level expr

/-- The computation does the same whatever the resources, and leaves them as they are. -/
def Eval.Unlabelled {α : Type} (x : Eval α) : Prop :=
  ∀ s labels, x.run.run (s.labelled labels) = ((x.run.run s).1,(x.run.run s).2.labelled labels)

def Evaluator.Unlabelled (eval : Evaluator) : Prop := ∀ i e, Eval.Unlabelled (eval i e)

namespace Eval

/-- The second computation does what the first one does from this store, and adds notes. -/
def Notes {α : Type} (s : Store) (x x' : Eval α) (notes : List String) : Prop :=
  ∀ labels, x'.run.run (s.labelled labels) = ((x.run.run s).1,(x.run.run s).2.labelled (labels ++ notes))

/-- The second computation does what the first one does and notes what is planned, in this order. Unless
it ends with an error it gets to the end of the plan. -/
def Proceeds {α : Type} (s : Store) (x x' : Eval α) (plan : List String) : Prop :=
  ∃ notes, Notes s x x' notes ∧ notes <+: plan ∧ ∀ a, (x.run.run s).1 = .ok a → notes = plan

section Unlabelled

variable {α β : Type} {x : Eval α} {f : α → Eval β}

theorem Unlabelled.bind (first : Unlabelled x) (next : ∀ a, Unlabelled (f a)) : Unlabelled (x >>= f) := by
  intro s labels
  have moved := first s labels
  generalize ran : x.run.run s = after at moved
  obtain ⟨result,t⟩ := after
  cases result with
  | ok a =>
    rw [run_bind_ok moved,run_bind_ok ran]
    exact next a t labels
  | error e => rw [run_bind_error moved,run_bind_error ran]

theorem parent_unlabelled (i : Nat) : Unlabelled (Eval.parent i) := by
  intro s labels
  have same : ((s.labelled labels).levelAt i).parent = (s.levelAt i).parent := rfl
  cases above : (s.levelAt i).parent with
  | some p => rw [run_parent_some above,run_parent_some (same.trans above)]
  | none =>
    rw [run_parent_none above,run_parent_none (same.trans above)]
    rfl

theorem Unlabelled.of_parallel {base : Nat} {known : Nat → Prop} {y : Eval α}
    (parallel : Parallel (fun eval _ => Evaluator.Unlabelled eval) base known x y) :
    Unlabelled x := by
  induction parallel with
  | pure | throw | update => exact fun _ _ => rfl
  | bind _ _ first next => exact first.bind next
  | adapt f _ ih =>
    intro s labels
    rw [run_adapt,run_adapt,ih s labels]
  | get _ reads ih =>
    intro s labels
    exact (congrArg (fun x : Eval _ => x.run.run (s.labelled labels)) (reads s labels)).trans (ih s s labels)
  | @change _ α _ _ moves =>
    intro s labels
    exact congrArg (fun after : α × Store => ((.ok after.1 : Except Error α),after.2)) (moves s labels)
  | scope _ _ ih => exact Unlabelled.bind (fun _ _ => rfl) ih
  | parent _ _ ih => exact (parent_unlabelled _).bind ih
  | call same => exact same _ _

theorem Built.unlabelled (built : Built Evaluator.Unlabelled x) : Unlabelled x := .of_parallel built

theorem eval_unlabelled (fuel : Nat) : Evaluator.Unlabelled (eval fuel) := by
  refine eval_of_step (fun _ _ _ _ => rfl) (fun {inner reflected} first second i e => ?_) fuel
  have step : Built Evaluator.Unlabelled (evalStep inner reflected i e) := .evalStep first trivial second e
  exact .of_parallel step

end Unlabelled

section Notes

variable {α β : Type} {x x' : Eval α} {f f' : α → Eval β} {s : Store} {plan : List String}

theorem Unlabelled.proceeds (same : Unlabelled x) (s : Store) : Proceeds s x x [] := by
  refine ⟨[],fun labels => ?_,List.prefix_rfl,fun _ _ => rfl⟩
  rw [List.append_nil]
  exact same s labels

theorem noting_proceeds {eval : Evaluator} {i : Nat} {e : Value} (same : Unlabelled (eval i e))
    (s : Store) : Proceeds s (eval i e) (eval.noting i e) [e.text] := by
  refine ⟨[e.text],fun labels => ?_,List.prefix_rfl,fun _ _ => rfl⟩
  exact same s (labels ++ [e.text])

theorem Proceeds.bind {rest : List String} (first : Proceeds s x x' plan)
    (next : ∀ a t, x.run.run s = (.ok a,t) → Proceeds t (f a) (f' a) rest) :
    Proceeds s (x >>= f) (x' >>= f') (plan ++ rest) := by
  obtain ⟨notes,noted,order,complete⟩ := first
  generalize ran : x.run.run s = after at *
  obtain ⟨result,t⟩ := after
  cases result with
  | ok a =>
    obtain ⟨more,noted',order',complete'⟩ := next a t rfl
    rw [complete a rfl] at noted
    refine ⟨plan ++ more,fun labels => ?_,(List.prefix_append_right_inj plan).mpr order',fun b ok => ?_⟩
    · have here := noted labels
      rw [ran] at here
      rw [run_bind_ok here,run_bind_ok ran,← List.append_assoc]
      exact noted' _
    · rw [run_bind_ok ran] at ok
      rw [complete' b ok]
  | error e =>
    refine ⟨notes,fun labels => ?_,order.trans (List.prefix_append plan rest),fun b ok => ?_⟩
    · have here := noted labels
      rw [ran] at here
      rw [run_bind_error here,run_bind_error ran]
    · rw [run_bind_error ran] at ok
      cases ok

theorem Proceeds.after (same : Unlabelled x)
    (next : ∀ a t, x.run.run s = (.ok a,t) → Proceeds t (f a) (f' a) plan) :
    Proceeds s (x >>= f) (x >>= f') plan :=
  (same.proceeds s).bind next

theorem Proceeds.get {g g' : Store → Eval β} (reads : ∀ labels, g' (s.labelled labels) = g' s)
    (next : Proceeds s (g s) (g' s) plan) :
    Proceeds s (MonadState.get >>= g) (MonadState.get >>= g') plan := by
  obtain ⟨notes,noted,order⟩ := next
  refine ⟨notes,fun labels => ?_,order⟩
  exact (congrArg (fun x : Eval β => x.run.run (s.labelled labels)) (reads labels)).trans (noted labels)

theorem Proceeds.adapt (proceeds : Proceeds s x x' plan) (f : Error → Error) :
    Proceeds s (x.adapt f) (x'.adapt f) plan := by
  obtain ⟨notes,noted,order,complete⟩ := proceeds
  refine ⟨notes,fun labels => ?_,order,fun a ok => ?_⟩
  · rw [run_adapt,run_adapt,noted labels]
  · rw [run_adapt] at ok
    generalize ran : x.run.run s = after at *
    obtain ⟨result,t⟩ := after
    cases result with
    | ok b => exact complete b rfl
    | error => cases ok

variable {eval : Evaluator} (same : eval.Unlabelled) (i : Nat)

include same

theorem each_proceeds (es : List Value) (s : Store) :
    Proceeds s (eval.each i es) (eval.noting.each i es) (es.map text) := by
  induction es generalizing s with
  | nil => exact Unlabelled.proceeds (fun _ _ => rfl) s
  | cons e es ih =>
    refine (noting_proceeds (same i e) s).bind fun v t _ => ?_
    have rest := (ih t).bind fun vs u _ =>
      Unlabelled.proceeds (x := pure (v :: vs)) (fun _ _ => rfl) u
    rwa [List.append_nil] at rest

theorem compileBlock_proceeds (form : LetForm) (values : List Value) (s : Store) :
    Proceeds s (compileBlock eval form values i) (compileBlock eval.noting form values i) [form.body.text] := by
  refine .get (fun _ => rfl) (.after (fun _ _ => rfl) fun l t _ => ?_)
  refine .after (fun _ _ => rfl) fun _ t _ => .after (fun _ _ => rfl) fun _ t _ => ?_
  refine (noting_proceeds (same i form.body) t).bind fun body u _ => ?_
  exact (Built.unlabelled (.bind (.ofResult _) fun _ => .pure _)).proceeds u

theorem compileRecursive_proceeds (form : LetForm) (s : Store) :
    Proceeds s (compileRecursive eval form i) (compileRecursive eval.noting form i)
      ((form.bindings.map init).map text ++ [form.body.text]) := by
  refine .after (fun _ _ => rfl) fun l t _ => .after (Built.unlabelled (.referEach _ _))
    fun env t _ => .after (fun _ _ => rfl) fun inner t _ => ?_
  refine (each_proceeds same inner _ t).bind fun values u _ => ?_
  exact compileBlock_proceeds same inner form values u

end Notes

/-- The values of the initialisers of a recursive form, which see empty slots. -/
def initialValues (eval : Evaluator) (form : LetForm) (level : Nat) : Eval (List Value) := do
  let env ← extendAll (← Eval.level level).env (form.names.map fun name => (name,.nil))
  eval.each (← scope level env) (form.bindings.map init)

def restarts (eval : Evaluator) (form : LetForm) (level : Nat) (s : Store) : Bool :=
  ((initialValues eval form level).run.run s).1.toOption.any fun values => values.any isCode

def evaluations (form : LetForm) (again : Bool) : List String :=
  (form.bindings.map init).map text ++
    ((if again then (form.bindings.map init).map text else []) ++ [form.body.text])

variable {eval : Evaluator} {form : LetForm}

theorem recursiveLet_proceeds (same : eval.Unlabelled) (i : Nat) (form : LetForm) (s : Store) :
    Proceeds s (recursiveLet eval form i) (recursiveLet eval.noting form i)
      (evaluations form (restarts eval form i s)) := by
  refine .after (fun _ _ => rfl) fun l t found => .after (fun _ _ => rfl) fun env u bound => ?_
  refine .after (fun _ _ => rfl) fun inner v entered => ?_
  refine (each_proceeds same inner _ v).bind fun values w ran => ?_
  have first : (initialValues eval form i).run.run s = (.ok values,w) :=
    (run_bind_ok found).trans ((run_bind_ok bound).trans ((run_bind_ok entered).trans ran))
  have again : restarts eval form i s = values.any isCode := by
    rw [restarts,first]
    rfl
  rw [again]
  cases values.any isCode with
  | true => exact compileRecursive_proceeds same i form w
  | false =>
    refine .after (Built.unlabelled (.assignEach env _)) fun _ z _ => ?_
    exact noting_proceeds (same inner form.body) z

/-- A form that restarts is compiled in the store that its first evaluations have left. -/
theorem run_recursiveLet {i : Nat} {s t : Store} {values : List Value}
    (first : (initialValues eval form i).run.run s = (.ok values,t))
    (staged : values.any isCode = true) :
    (recursiveLet eval form i).run.run s = (compileRecursive eval form i).run.run t := by
  have level : (Eval.level i).run.run s = (.ok (s.levelAt i),s) := rfl
  obtain ⟨env,u,bound⟩ : ∃ env u, (extendAll (s.levelAt i).env
      (form.names.map fun name => (name,.nil))).run.run s = (.ok env,u) := ⟨_,_,rfl⟩
  obtain ⟨inner,w,entered⟩ : ∃ inner w, (scope i env).run.run u = (.ok inner,w) := ⟨_,_,rfl⟩
  unfold initialValues at first
  rw [run_bind_ok level,run_bind_ok bound,run_bind_ok entered] at first
  unfold recursiveLet
  rw [run_bind_ok level,run_bind_ok bound,run_bind_ok entered,run_bind_ok first,if_pos staged]

theorem evalStep_letrec (eval reflected : Evaluator) (level : Nat) {e : Value}
    {parts : List Value} (listed : IsForm "letrec" parts e)
    (read : LetForm.ofParts .recursive parts = .ok form) :
    evalStep eval reflected level e = (recursiveLet eval form level).adapt (·.whileEvaluating e) := by
  have fixed : fixedRule? eval level "letrec" = some (letrecForm eval level) := rfl
  have rule := evalForm_fixed eval reflected level listed.head fixed
  rw [listed.parts,ofResult_ok_bind,letrecForm,read,ofResult_ok_bind] at rule
  obtain ⟨_,_,rfl,_⟩ := formItems_cons listed
  rw [← rule]
  rfl

end Eval

open Eval in
/-- A recursive form evaluates its initialisers in order, then all of them once more if one of their
values is a fragment, and then its body; it leaves out only what comes after an error. The second time it
starts from the store that the first time has left. -/
theorem letrec_evaluations (fuel level : Nat) {expr : Value} {parts : List Value} {form : LetForm}
    (listed : IsForm "letrec" parts expr) (read : LetForm.ofParts .recursive parts = .ok form)
    (s : Store) :
    Proceeds s (eval (fuel + 1) level expr)
      (evalStep (eval fuel).noting (eval (fuel - 1)) level expr)
      (evaluations form (restarts (eval fuel) form level s)) ∧
    ∀ values t, (initialValues (eval fuel) form level).run.run s = (.ok values,t) →
      values.any Value.isCode = true → (eval (fuel + 1) level expr).run.run s =
        ((compileRecursive (eval fuel) form level).adapt (·.whileEvaluating expr)).run.run t := by
  rw [eval_succ,evalStep_letrec _ _ level listed read,evalStep_letrec _ _ level listed read]
  refine ⟨(recursiveLet_proceeds (eval_unlabelled fuel) level form s).adapt _,?_⟩
  intro values t first staged
  rw [run_adapt,run_adapt,run_recursiveLet first staged]

/-- `(set! n (+ n 1))` -/
def counting : Value :=
  .ofParts [.sym "set!",.sym "n",.ofParts [.sym "+",.sym "n",.int 1]]

/-- `(letrec ((a (set! n (+ n 1))) (b (lift 1))) b)` -/
def countingLet : LetForm where
  kind := .recursive
  bindings := [⟨"a",counting⟩,⟨"b",.ofParts [.sym "lift",.int 1]⟩]
  body := .sym "b"

def countingParts : List Value :=
  [.ofParts [.ofParts [.sym "a",counting],.ofParts [.sym "b",.ofParts [.sym "lift",.int 1]]],.sym "b"]

def countingStore : Store :=
  ((evaluate 0 (.ofParts [.sym "set-meta!",.sym "n",.int 0])).run.run ({} : Store).addRoot.2).2

/-- The second initialiser yields a fragment, so the assignment in the first one is made twice. -/
theorem initialiser_evaluated_twice :
    ((evaluate.each 0 [.ofParts (.sym "letrec" :: countingParts),.sym "n"]).run.run
      countingStore).1.toOption.map (·.map Value.int?) = some [none,some 2] ∧
    ((evalStep (eval 9).noting (eval 8) 0 (.ofParts (.sym "letrec" :: countingParts))).run.run
      countingStore).2.arena.resources =
        ["(set! n (+ n 1))","(lift 1)","(set! n (+ n 1))","(lift 1)","b"] := by
  decide +kernel

theorem counting_evaluations :
    IsForm "letrec" countingParts (.ofParts (.sym "letrec" :: countingParts)) ∧
    LetForm.ofParts .recursive countingParts = .ok countingLet ∧
    Eval.Proceeds countingStore (eval 10 0 (.ofParts (.sym "letrec" :: countingParts)))
      (evalStep (eval 9).noting (eval 8) 0 (.ofParts (.sym "letrec" :: countingParts)))
      ["(set! n (+ n 1))","(lift 1)","(set! n (+ n 1))","(lift 1)","b"] := by
  have planned : Eval.evaluations countingLet (Eval.restarts (eval 9) countingLet 0 countingStore) =
      ["(set! n (+ n 1))","(lift 1)","(set! n (+ n 1))","(lift 1)","b"] := by decide +kernel
  have listed : IsForm "letrec" countingParts (.ofParts (.sym "letrec" :: countingParts)) := rfl
  have read : LetForm.ofParts .recursive countingParts = .ok countingLet := rfl
  rw [← planned]
  exact ⟨listed,read,(letrec_evaluations 9 0 listed read countingStore).1⟩

end StagedLisp
