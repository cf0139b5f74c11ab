import StagedLisp.Proofs.Eval.Parallel
import StagedLisp.Proofs.Eval.Plain

/-! Evaluation with more room. An evaluator that yields whatever another one yields can stand in its
place: no rule looks at how deep evaluations are nested, and none recovers from an error. -/
namespace StagedLisp

/-- Whatever the first computation yields, the second one does too, and with the same store. -/
def Eval.Below {α : Type} (x y : Eval α) : Prop :=
  ∀ s a s', Ran x s a s' → Ran y s a s'

def Evaluator.Below (eval eval' : Evaluator) : Prop :=
  ∀ level expr, Eval.Below (eval level expr) (eval' level expr)

theorem Ran.andThen {α β : Type} {x : Eval α} {f : α → Eval β} {s mid s' : Store} {a : α} {b : β}
    (first : Ran x s a mid) (second : Ran (f a) mid b s') : Ran (x >>= f) s b s' :=
  (Eval.run_bind_ok first).trans second

theorem Ran.adapted {α : Type} {x : Eval α} {f : Error → Error} {s s' : Store} {a : α}
    (ran : Ran x s a s') : Ran (x.adapt f) s a s' := by
  unfold Ran at ran ⊢
  show (Except.mapError f (x.run.run s).1,(x.run.run s).2) = _
  rw [ran]
  rfl

namespace Eval

namespace Below

variable {α β : Type} {x y : Eval α} {f g : α → Eval β}

theorem refl (x : Eval α) : Below x x := fun _ _ _ ran => ran

theorem fault {cause : Fault} : Below (Eval.fault cause) y := fun _ _ _ ran => ran.fault.elim

theorem bind (first : Below x y) (next : ∀ a, Below (f a) (g a)) : Below (x >>= f) (y >>= g) := by
  intro s b s' ran
  obtain ⟨a,mid,ran,rest⟩ := ran.bind
  exact (first s a mid ran).andThen (next a mid b s' rest)

theorem after (x : Eval α) (next : ∀ a, Below (f a) (g a)) : Below (x >>= f) (x >>= g) :=
  (refl x).bind next

theorem adapt (below : Below x y) (f : Error → Error) : Below (x.adapt f) (y.adapt f) := by
  intro s a s' ran
  exact (below s a s' ran.adapt).adapted

end Below

theorem Below.of_parallel {base : Nat} {known : Nat → Prop} {α : Type} {x y : Eval α}
    (parallel : Parallel Evaluator.Below base known x y) : Below x y := by
  induction parallel with
  | pure | throw | change | update => exact .refl _
  | bind _ _ first next => exact first.bind next
  | adapt f _ ih => exact ih.adapt f
  | get _ _ ih | scope _ _ ih | parent _ _ ih => exact .after _ ih
  | call below => exact below _ _

end Eval

namespace Evaluator

variable {eval eval' reflected reflected' : Evaluator}

theorem evalStep_below (below : eval.Below eval') (reflects : reflected.Below reflected') :
    (evalStep eval reflected).Below (evalStep eval' reflected') := by
  intro level expr
  have step : Eval.Parallel Below level (fun _ => True) (evalStep eval reflected level expr)
      (evalStep eval' reflected' level expr) := .evalStep below trivial reflects expr
  exact .of_parallel step

theorem tooDeep_below (eval : Evaluator) : tooDeep.Below eval := fun _ _ => .fault

theorem eval_below_succ (fuel : Nat) : (StagedLisp.eval fuel).Below (StagedLisp.eval (fuel + 1)) := by
  induction fuel using StagedLisp.eval.induct with
  | case1 => exact tooDeep_below _
  | case2 => exact evalStep_below (tooDeep_below _) (tooDeep_below _)
  | case3 fuel first second => exact evalStep_below first second

theorem eval_below {fuel fuel' : Nat} (more : fuel ≤ fuel') :
    (StagedLisp.eval fuel).Below (StagedLisp.eval fuel') := by
  induction more with
  | refl => exact fun _ _ => .refl _
  | step _ ih =>
    intro level expr s v s' ran
    exact eval_below_succ _ level expr s v s' (ih level expr s v s' ran)

end Evaluator

/-- What an expression yields at some depth it yields at every smaller depth, and it leaves the same
store: the limit on the depth only turns results into errors. -/
theorem eval_at_smaller_depth (level : Nat) (expr v : Value) (s s' : Store) {depth depth' : Nat}
    (smaller : depth' ≤ depth)
    (ran : (eval (depthLimit - depth) level expr).run.run s = (.ok v,s')) :
    (eval (depthLimit - depth') level expr).run.run s = (.ok v,s') :=
  Evaluator.eval_below (Nat.sub_le_sub_left smaller depthLimit) level expr s v s' ran

def answering : Value := .closure 0 ["e"] (.pair 2 (.sym "quote") (.pair 1 (.int 7) .nil)) []

def answeringStore : Store where
  levels := #[{ env := [], handlers := { literal := .reflected answering } }]

/-- The body of a replaced rule can just be evaluated at depth 197, and it yields the same at the
top. -/
theorem answer_at_smaller_depth :
    ∃ s', (eval (depthLimit - 197) 0 (.int 1)).run.run answeringStore = (.ok (.int 7),s') ∧
      (eval (depthLimit - 0) 0 (.int 1)).run.run answeringStore = (.ok (.int 7),s') :=
  ⟨_,rfl,eval_at_smaller_depth 0 (.int 1) (.int 7) answeringStore _ (Nat.zero_le 197) rfl⟩

end StagedLisp
