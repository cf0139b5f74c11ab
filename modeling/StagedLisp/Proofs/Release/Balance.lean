import Mathlib.Algebra.BigOperators.Group.List.Basic
import StagedLisp.Proofs.Eval.Forms
import StagedLisp.Proofs.Flow.Death
import StagedLisp.Proofs.Release.Donation

/-! Every binding is given back exactly once or not at all, as its plan says: before the body, to a
later binding, on a branch of the body or after it. Steps are signed with the binding they are
about, since two names may have the same identifier in the generated program. -/
namespace StagedLisp

open List BindingPlan Code Step Function Flow

/-- The action gives storage back; `freed` says whether the flag of its variable is set. -/
def Code.Action.releases (freed : Bool) : Action → Bool
  | free _ _ _ | releaseComponent _ _ => true
  | guardedFree _ _ _ => !freed
  | flag _ | freeze _ | remark _ => false

def Step.releases : Step → Bool
  | act action => action.releases false
  | declare _ _ _ | assign _ _ => false

namespace BindingPlan

def signed {α : Type} (p : BindingPlan) (entries : List α) : List (String × α) :=
  entries.map (p.name,·)

@[simp] theorem signed_snd {α : Type} (p : BindingPlan) (entries : List α) :
    (p.signed entries).map Prod.snd = entries := by
  simp [signed]

end BindingPlan

namespace Plans

def signedAfter (plans : Plans) (index : Nat) : List (String × Step) :=
  let bound := ((plans[index]?).map name).getD ""
  ((plans[index]?).map fun p => p.signed p.opening).getD [] ++
    plans.flatMap fun p => p.signed (p.earlyRelease index bound)

/-- The statements before the result, each with the name of the binding it is about. -/
def signedSteps (kind : LetKind) (plans : Plans) : List (String × Step) :=
  match kind with
  | .plain =>
    plans.zipIdx.flatMap fun (p,i) =>
      (match p.init with | some init => p.signed (p.declaration init) | none => []) ++ plans.signedAfter i
  | .recursive =>
    (plans.flatMap fun p => if p.init.isSome then p.signed (p.declaration .null) else []) ++
      (plans.filterMap fun p => p.init.map fun init => (p.name,assign p.ident init)) ++
      (List.range plans.length).flatMap plans.signedAfter

/-- What follows the result, each action with the name of the binding it is about. -/
def signedClosing (plans : Plans) : List (String × Action) :=
  (plans.reverse.filter (·.init.isSome)).filterMap fun p => p.closing?.map (p.name,·)

theorem signedAfter_snd (plans : Plans) (index : Nat) :
    (plans.signedAfter index).map Prod.snd = plans.afterStatement index := by
  simp only [signedAfter,afterStatement,map_append,map_flatMap,signed_snd]
  cases plans[index]? <;> simp

theorem signedSteps_snd (kind : LetKind) (plans : Plans) :
    (plans.signedSteps kind).map Prod.snd = plans.steps kind := by
  cases kind with
  | plain =>
    simp only [signedSteps,steps,map_flatMap,map_append,signedAfter_snd]
    congr 1
    funext entry
    obtain ⟨p,i⟩ := entry
    cases p.init <;> simp
  | recursive =>
    simp only [signedSteps,steps,map_flatMap,map_append,signedAfter_snd,map_filterMap]
    congr 2
    · congr 1
      funext p
      cases p.init <;> simp
    · congr 1
      funext p
      cases p.init <;> simp

theorem signedClosing_snd (plans : Plans) : plans.signedClosing.map Prod.snd = plans.closing := by
  simp only [signedClosing,closing,map_filterMap]
  congr 1
  funext p
  cases p.closing? <;> simp

variable {plans : Plans} {p : BindingPlan} {α : Type}

end Plans

namespace Flow

theorem Path.inBody {form : LetForm} {budget n last : Nat} {edges : List (Nat × Nat)}
    (path : Path (ofForm form budget) n edges last) (inside : InBody form (ofForm form budget) n) :
    ∀ edge ∈ edges, InBody form (ofForm form budget) edge.1 := by
  induction path with
  | done => simp
  | step taken _ ih =>
    intro edge member
    rcases mem_cons.mp member with rfl | member
    · exact inside
    · exact ih (inBody_successor inside (mem_of_getElem? taken)) edge member

end Flow

namespace Liveness

variable {form : LetForm} {cap depth n last : Nat} {path : List (Nat × Nat)}

end Liveness

namespace Plans

variable {form : LetForm} {values : List Value} {pooling : Bool}
  {deaths : String → List (Nat × Nat)} {plans : Plans} {p : BindingPlan}

section

variable (settled : Settled form values pooling deaths plans) (distinct : form.names.Nodup) (member : p ∈ plans)

include settled distinct member

end

/-- The form `(let ((x (cons 1 2))) (if x (car x) 3))`, in which the pair dies on the second
branch. -/
def branching : LetForm where
  kind := .plain
  bindings := [⟨"x",.pair 5 (.sym "cons") (.pair 6 (.int 1) (.pair 7 (.int 2) .nil))⟩]
  body := .pair 9 (.sym "if") (.pair 10 (.sym "x") (.pair 11
    (.pair 12 (.sym "car") (.pair 13 (.sym "x") .nil)) (.pair 14 (.int 3) .nil)))

end Plans

end StagedLisp
