import StagedLisp.Eval.Basic
import StagedLisp.Proofs.Form.Let
import StagedLisp.Proofs.Form.View

/-! Which rule evaluates a form, and which parts it finds there. -/
namespace StagedLisp

open Eval View Value LetForm

def IsForm (keyword : String) (parts : List Value) (e : Value) : Prop :=
  e.formItems? = some (.sym keyword :: parts)

variable {e : Value} {keyword : String} {form : LetForm} {kind : LetKind}

theorem Eval.parts_ok {parts : List Value} (head : e.headSymbol? = some keyword)
    (read : Eval.parts e = .ok parts) : IsForm keyword parts e := by
  cases e with
  | pair cell first tail =>
    have first : first = .sym keyword := by
      cases first with
      | sym name => exact congrArg sym (Option.some.inj head)
      | _ => cases head
    subst first
    unfold Eval.parts at read
    split at read
    · next found =>
      cases read
      show (Value.pair cell (.sym keyword) tail).items? = _
      rw [items?]
      exact congrArg (Option.map _) found
    · cases read
  | _ => cases head

theorem IsForm.view {parts : List Value} (form : IsForm keyword parts e) : of? e = some (ofKeyword keyword parts) :=
  of?_items form

theorem IsForm.head {parts : List Value} (form : IsForm keyword parts e) : e.headSymbol? = some keyword := by
  obtain ⟨_,_,rfl,_⟩ := formItems_cons form
  rfl

theorem IsForm.parts {parts : List Value} (form : IsForm keyword parts e) : Eval.parts e = .ok parts := by
  obtain ⟨_,_,rfl,rest⟩ := formItems_cons form
  simp [Eval.parts,tail?,rest]

theorem LetForm.ofValue_form (read : ofValue e = .ok form) :
    ∃ parts, IsForm form.kind.keyword parts e ∧ ofParts form.kind parts = .ok form := by
  have named (kind : LetKind) {parts : List Value} (head : e.headSymbol? = some kind.keyword)
      (found : e.tail?.bind items? = some parts) (read : ofParts kind parts = .ok form) :
      ∃ parts, IsForm form.kind.keyword parts e ∧ ofParts form.kind parts = .ok form := by
    rw [(ofParts_read read).1]
    refine ⟨parts,Eval.parts_ok head ?_,read⟩
    rw [Eval.parts,found]
  unfold ofValue at read
  dsimp only at read
  split at read
  · next head =>
    split at read
    · next found => exact named .plain head found read
    · cases read
  · next head =>
    split at read
    · next found => exact named .recursive head found read
    · cases read
  · cases read

/-- A form that was read has distinct names, and takes its cells from the value it was read from. -/
theorem LetForm.ofValue_ok (read : ofValue e = .ok form) : form.names.Nodup ∧ form.cells.Sublist e.cells := by
  obtain ⟨parts,listed,read⟩ := ofValue_form read
  obtain ⟨names,cells⟩ := ofParts_ok read
  obtain ⟨_,_,inside⟩ := formItems_cells listed
  rw [List.flatMap_cons] at inside
  exact ⟨names,cells.trans ((List.sublist_append_right _ _).trans ((List.sublist_cons_self _ _).trans inside))⟩

theorem LetForm.ofParts_view {parts : List Value} (listed : IsForm kind.keyword parts e)
    (read : ofParts kind parts = .ok form) : of? e = some (.binding form) := by
  rw [listed.view]
  cases kind <;> simp [LetKind.keyword,ofKeyword,read]

theorem evalForm_let (eval reflected : Evaluator) (level : Nat)
    (head : e.headSymbol? = some "let") : evalForm eval reflected level e =
      dispatch .letForm (letRule eval level e) reflected level e := by
  unfold evalForm
  rw [head]
  rfl

theorem evalForm_choice (eval reflected : Evaluator) (level : Nat)
    (head : e.headSymbol? = some "if") : evalForm eval reflected level e =
      dispatch .ifForm (ifRule eval level e) reflected level e := by
  unfold evalForm
  rw [head]
  rfl

theorem evalForm_fixed (eval reflected : Evaluator) (level : Nat) {rule : List Value → Eval Value}
    (head : e.headSymbol? = some keyword) (fixed : fixedRule? eval level keyword = some rule) :
    evalForm eval reflected level e = (do rule (← ofResult (parts e))) := by
  unfold evalForm
  rw [head]
  split
  · next same =>
    cases same
    cases fixed
  · next same =>
    cases same
    cases fixed
  · rw [Option.bind_some,fixed]

theorem fixedRule?_other (eval : Evaluator) (level : Nat) {name : String}
    (other : isKeyword name = false) : fixedRule? eval level name = none := by
  unfold fixedRule?
  split
  all_goals first
    | rfl
    | cases other

theorem evalForm_other (eval reflected : Evaluator) (level : Nat)
    (other : ∀ name, e.headSymbol? = some name → isKeyword name = false) :
    evalForm eval reflected level e = dispatch .call (callRule eval level e) reflected level e := by
  unfold evalForm
  split
  · next head => cases other _ head
  · next head => cases other _ head
  · cases head : e.headSymbol? with
    | none => rfl
    | some name => rw [Option.bind_some,fixedRule?_other eval level (other name head)]

theorem View.ofItems_other {head : Value} {args : List Value}
    (other : ∀ name, head = .sym name → isKeyword name = false) :
    ofItems (head :: args) = .call head args := by
  cases head with
  | sym name =>
    have other := other name rfl
    show ofKeyword name args = _
    unfold ofKeyword
    split
    all_goals first
      | rfl
      | cases other
  | _ => rfl

namespace Eval

theorem ofResult_ok_bind {α β : Type} (a : α) (f : α → Eval β) : (ofResult (.ok a) >>= f) = f a :=
  pure_bind a f

variable {parts : List Value}

theorem onePart_ok {form : String} {part : Value} (read : onePart form parts = .ok part) : parts = [part] := by
  unfold onePart at read
  split at read
  · cases read
    rfl
  · cases read

theorem twoParts_ok {form : String} {first second : Value}
    (read : twoParts form parts = .ok (first,second)) : parts = [first,second] := by
  unfold twoParts at read
  split at read
  · cases read
    rfl
  · cases read

theorem refer_cons (scope : Nat) (name : String) (value : Value) (rest : List (String × Value)) :
    refer scope ((name,value) :: rest) =
      (if value.isMaterial then reference name >>= define scope name else pure ()) >>=
        fun _ => refer scope rest := by
  rw [refer]
  split
  · rw [bind_assoc]
  · rw [pure_bind]

theorem bindEach_step (eval : Evaluator) (scope : Nat) (done : List (String × Value))
    (staged : Bool) (b : Binding) (rest : List Binding) :
    bindEach eval scope done staged (b :: rest) = eval scope b.init >>= fun value =>
      (if value.isCode && !staged then refer scope done else pure ()) >>= fun _ =>
      (if (staged || value.isCode) && value.isMaterial then reference b.name else pure value) >>=
        fun bound => define scope b.name bound >>= fun _ =>
          bindEach eval scope (done ++ [(b.name,value)]) (staged || value.isCode) rest := by
  rw [bindEach]
  congr
  funext value
  by_cases code : (value.isCode && !staged) = true <;>
    by_cases named : ((staged || value.isCode) && value.isMaterial) = true <;>
    simp only [code,named,if_true,if_false,Bool.false_eq_true,pure_bind]

theorem assignEach_cons (env : Env) (name : String) (value : Value)
    (rest : List (String × Value)) : assignEach env ((name,value) :: rest) =
      assign env name value >>= fun _ => assignEach env rest := rfl

theorem target_cases (parts : List Value) : (∃ name expr, parts = [.sym name,expr]) ∨
    (∃ e, ∀ eval level, setForm eval level parts = ofResult (.error e)) ∧
      ∃ e, ∀ eval level, setMetaForm eval level parts = ofResult (.error e) := by
  rcases parts with _ | ⟨target,_ | ⟨expr,_ | _⟩⟩
  · exact .inr ⟨⟨_,fun _ _ => rfl⟩,⟨_,fun _ _ => rfl⟩⟩
  · exact .inr ⟨⟨_,fun _ _ => rfl⟩,⟨_,fun _ _ => rfl⟩⟩
  · cases target with
    | sym name => exact .inl ⟨name,expr,rfl⟩
    | _ => exact .inr ⟨⟨_,fun _ _ => rfl⟩,⟨_,fun _ _ => rfl⟩⟩
  · exact .inr ⟨⟨_,fun _ _ => rfl⟩,⟨_,fun _ _ => rfl⟩⟩

def store (env : Env) (name : String) (old value : Value) : Eval Value :=
  match old.code?, value.code? with
  | some place, _ => do return .code (.assign place (← ofResult value.lift))
  | none, some fragment => return .code (.assign (.var (Code.identifier name)) fragment)
  | none, none => assign env name value >>= fun _ => pure value

theorem setForm_step (eval : Evaluator) (level : Nat) (name : String) (expr : Value) :
    setForm eval level [.sym name,expr] = eval level expr >>= fun value =>
      Eval.level level >>= fun l => value? l.env name >>= fun old =>
        old.elim (fault (.unbound name)) fun old => store l.env name old value := by
  rw [setForm,twoParts,ofResult_ok_bind]
  refine bind_congr fun value => ?_
  refine bind_congr fun l => ?_
  refine bind_congr fun old => ?_
  cases old with
  | none => rfl
  | some old => cases old <;> cases value <;> rfl

def setMeta (eval : Evaluator) (level : Nat) (name : String) (expr : Value) : Eval Unit :=
  (Rule.ofName? name).elim (eval level expr >>= define level name) fun rule =>
    if expr.symbol? = some "default" then setHandler level rule .native
    else eval level expr >>= fun procedure =>
      if isProcedure procedure then setHandler level rule (.reflected procedure)
      else fault (.notHandler procedure)

theorem setMetaForm_step (eval : Evaluator) (level : Nat) (name : String) (expr : Value) :
    setMetaForm eval level [.sym name,expr] = setMeta eval level name expr >>= fun _ => pure (.sym name) := by
  rw [setMetaForm,twoParts,ofResult_ok_bind]
  unfold setMeta
  dsimp only
  cases Rule.ofName? name with
  | none => simp only [Option.elim_none,bind_assoc]
  | some rule =>
    simp only [Option.elim_some]
    split
    · rfl
    · rw [bind_assoc]
      refine bind_congr fun procedure => ?_
      split <;> rfl

def branch (eval : Evaluator) (level : Nat) (part : Option Value) : Eval Value :=
  part.elim (pure .nil) (eval level)

def bothBranches (eval : Evaluator) (level : Nat) (expr onTrue : Value) (onFalse : Option Value)
    (test : Code) : Eval Value := do
  let onTrue ← ofResult (← eval level onTrue).lift
  let onFalse ← ofResult (← branch eval level onFalse).lift
  let onTrue ← withDrops level expr 0 onTrue
  let onFalse ← withDrops level expr 1 onFalse
  return .code (.conditional test onTrue onFalse)

theorem conditional_step (eval : Evaluator) (level : Nat) (expr test onTrue : Value)
    (onFalse : Option Value) : conditional eval level expr test onTrue onFalse =
      eval level test >>= fun v => v.code?.elim (if v.truthy then eval level onTrue else branch eval level onFalse)
        (bothBranches eval level expr onTrue onFalse) := by
  unfold conditional
  refine bind_congr fun v => ?_
  cases onFalse <;> cases v <;> rfl

end Eval

theorem eval_succ (fuel : Nat) : eval (fuel + 1) = evalStep (eval fuel) (eval (fuel - 1)) := by
  cases fuel <;> rfl

theorem eval_of_step {P : Evaluator → Prop} (deep : P tooDeep)
    (step : ∀ {inner reflected}, P inner → P reflected → P (evalStep inner reflected)) (fuel : Nat) :
    P (eval fuel) := by
  induction fuel using eval.induct with
  | case1 => exact deep
  | case2 => exact step deep deep
  | case3 fuel first second => exact step first second

end StagedLisp
