import StagedLisp.Proofs.Eval.Forms
import StagedLisp.Proofs.Form.Plain

/-! Expressions without staging: `lift` and `run` give way to their operands, also in the bodies of
procedures. -/
namespace StagedLisp

open Value

namespace Value

mutual

/-- The expression with the operands of its `lift` and `run` forms in their place. What is quoted,
parameter lists and names that are bound or assigned stay as they are. -/
def unstaged : Value → Value
  | pair cell head tail =>
    match head.symbol?, tail with
    | some "quote", tail => pair cell head tail
    | some "lift", pair _ operand nil => operand.unstaged
    | some "run", pair _ operand nil => operand.unstaged
    | some "lambda", pair c params rest => pair cell head (pair c params rest.unstagedItems)
    | some "set!", pair c target rest => pair cell head (pair c target rest.unstagedItems)
    | some "let", pair c entries rest =>
      pair cell head (pair c entries.unstagedEntries rest.unstagedItems)
    | some "letrec", pair c entries rest =>
      pair cell head (pair c entries.unstagedEntries rest.unstagedItems)
    | _, tail => pair cell head.unstaged tail.unstagedItems
  | atom => atom

def unstagedItems : Value → Value
  | pair cell head tail => pair cell head.unstaged tail.unstagedItems
  | last => last

def unstagedEntries : Value → Value
  | pair cell entry rest => pair cell entry.unstagedEntry rest.unstagedEntries
  | last => last

def unstagedEntry : Value → Value
  | pair cell name rest => pair cell name rest.unstagedItems
  | other => other

end

/-- Keywords whose forms hold more than expressions, or are left out. -/
def stagedKeywords : List String := ["quote","lift","run","lambda","set!","let","letrec"]

theorem unstaged_other {cell : Nat} {head tail : Value}
    (other : ∀ name, head.symbol? = some name → name ∉ stagedKeywords) :
    (pair cell head tail).unstaged = pair cell head.unstaged tail.unstagedItems := by
  conv_lhs => unfold unstaged
  split
  all_goals first
    | rfl
    | (next found => exact absurd (by decide) (other _ found))

theorem items?_unstagedItems (v : Value) : v.unstagedItems.items? = v.items?.map (List.map unstaged) := by
  induction v with
  | pair cell head tail _ ih =>
    rw [unstagedItems,items?,items?,ih]
    cases tail.items? <;> rfl
  | _ => rfl

theorem items?_unstagedEntries (v : Value) : v.unstagedEntries.items? = v.items?.map (List.map unstagedEntry) := by
  induction v with
  | pair cell head tail _ ih =>
    rw [unstagedEntries,items?,items?,ih]
    cases tail.items? <;> rfl
  | _ => rfl

variable {first : Value} {rest : List Value}

theorem unstaged_items {e : Value} (items : e.formItems? = some (first :: rest))
    (other : ∀ name, first = .sym name → name ∉ stagedKeywords) :
    e.unstaged.formItems? = some (first.unstaged :: rest.map unstaged) := by
  obtain ⟨cell,tail,rfl,listed⟩ := formItems_cons items
  have plain (name : String) (named : first.symbol? = some name) : name ∉ stagedKeywords := by
    cases first with
    | sym other' =>
      cases named
      exact other _ rfl
    | _ => cases named
  rw [unstaged_other plain,formItems?,items?,items?_unstagedItems,listed]
  rfl

theorem items?_empty {v : Value} (items : v.items? = some []) : v = nil := by
  cases v with
  | nil => rfl
  | pair =>
    obtain ⟨_,_,same⟩ := Option.map_eq_some_iff.mp items
    cases same
  | _ => cases items

end Value

section Forms

variable {e : Value} {parts : List Value}

theorem unstaged_quote (items : IsForm "quote" parts e) : e.unstaged = e := by
  obtain ⟨cell,tail,rfl,_⟩ := formItems_cons items
  rw [unstaged.eq_def]
  rfl

variable {keyword : String}

theorem unstaged_operand {operand : Value} (staging : keyword = "lift" ∨ keyword = "run")
    (items : IsForm keyword [operand] e) : e.unstaged = operand.unstaged := by
  obtain ⟨cell,tail,rfl,listed⟩ := formItems_cons items
  obtain ⟨cell',last,rfl,ended⟩ := items?_cons listed
  cases items?_empty ended
  rcases staging with rfl | rfl
  · conv_lhs => rw [unstaged.eq_def]
    rfl
  · conv_lhs => rw [unstaged.eq_def]
    rfl

theorem unstaged_rest {first : Value} {rest : List Value}
    (named : keyword = "lambda" ∨ keyword = "set!") (items : IsForm keyword (first :: rest) e) :
    IsForm keyword (first :: rest.map unstaged) e.unstaged := by
  obtain ⟨cell,tail,rfl,listed⟩ := formItems_cons items
  obtain ⟨cell',others,rfl,remaining⟩ := items?_cons listed
  have same : (pair cell (.sym keyword) (.pair cell' first others)).unstaged =
      .pair cell (.sym keyword) (.pair cell' first others.unstagedItems) := by
    rcases named with rfl | rfl
    · rw [unstaged.eq_def]
      rfl
    · rw [unstaged.eq_def]
      rfl
  unfold IsForm
  rw [same,formItems?,items?,items?,items?_unstagedItems,remaining]
  rfl

theorem unstaged_parts (items : IsForm keyword parts e) (other : keyword ∉ stagedKeywords) :
    IsForm keyword (parts.map unstaged) e.unstaged := by
  refine unstaged_items items fun name same => ?_
  cases same
  exact other

end Forms

namespace LetForm

def unstaged (form : LetForm) : LetForm where
  kind := form.kind
  bindings := form.bindings.map fun b => ⟨b.name,b.init.unstaged⟩
  body := form.body.unstaged

theorem unstaged_names (form : LetForm) : form.unstaged.names = form.names := by
  simp [unstaged,names]

variable {kind : LetKind} {form : LetForm}

theorem binding_unstaged {entry : Value} {b : Binding} (read : binding kind entry = .ok b) :
    binding kind entry.unstagedEntry = .ok ⟨b.name,b.init.unstaged⟩ := by
  obtain ⟨cell,tail,rfl,listed⟩ := items?_cons (binding_items read)
  unfold binding
  rw [unstagedEntry,items?,items?_unstagedItems,listed]
  rfl

theorem bindingsOf_unstaged {entries : List Value} {read result : List Binding}
    (ok : bindingsOf kind entries read = .ok result) :
    bindingsOf kind (entries.map unstagedEntry) (read.map fun b => ⟨b.name,b.init.unstaged⟩) =
        .ok (result.map fun b => ⟨b.name,b.init.unstaged⟩) := by
  induction entries generalizing read with
  | nil =>
    cases ok
    rfl
  | cons entry entries ih =>
    obtain ⟨b,found,new,rest⟩ := bindingsOf_cons ok
    have new' : ¬ (read.map fun b => (⟨b.name,b.init.unstaged⟩ : Binding)).any
        (·.name == b.name) := by simpa [List.any_map] using new
    simp only [List.map_cons,bindingsOf,binding_unstaged found,if_neg new']
    simpa using ih rest

theorem ofParts_unstaged {entries body : Value} (read : ofParts kind [entries,body] = .ok form) :
    ofParts kind [entries.unstagedEntries,body.unstaged] = .ok form.unstaged := by
  obtain ⟨rfl,_,items,same,listed,found⟩ := ofParts_read read
  cases same
  have unstaged := bindingsOf_unstaged found
  rw [List.map_nil] at unstaged
  simp only [ofParts,items?_unstagedEntries,listed,Option.map_some,unstaged]
  rfl

theorem isForm_unstaged {parts : List Value} {e : Value} (items : IsForm kind.keyword parts e)
    (read : ofParts kind parts = .ok form) :
    ∃ parts', IsForm kind.keyword parts' e.unstaged ∧ ofParts kind parts' = .ok form.unstaged := by
  obtain ⟨_,entries,_,rfl,_⟩ := ofParts_read read
  refine ⟨_,?_,ofParts_unstaged read⟩
  obtain ⟨cell,tail,rfl,listed⟩ := formItems_cons items
  obtain ⟨cell',others,rfl,remaining⟩ := items?_cons listed
  have same : (pair cell (.sym kind.keyword) (.pair cell' entries others)).unstaged =
      .pair cell (.sym kind.keyword) (.pair cell' entries.unstagedEntries others.unstagedItems) := by
    cases kind <;> (rw [Value.unstaged.eq_def]; rfl)
  unfold IsForm
  rw [same,formItems?,items?,items?,items?_unstagedItems,remaining]
  rfl

end LetForm

/-- Expressions made of integers, names, quotations, procedures, let forms of both kinds,
conditionals, assignments, `lift`, `freeze`, `run` and calls whose operators are admitted. -/
inductive CoreExpr (admits : Value → Prop) : Value → Prop where
  | int (n : Int64) : CoreExpr admits (.int n)
  | nil : CoreExpr admits .nil
  | name (x : String) : CoreExpr admits (.sym x)
  | quote {e datum} (items : IsForm "quote" [datum] e) (data : datum.isDatum) :
      CoreExpr admits e
  | lambda {e params body} (items : IsForm "lambda" [params,body] e)
      (part : CoreExpr admits body) : CoreExpr admits e
  | binding {e kind parts form} (items : IsForm kind.keyword parts e) (read : LetForm.ofParts kind parts = .ok form)
      (inits : ∀ b ∈ form.bindings, CoreExpr admits b.init) (body : CoreExpr admits form.body) :
      CoreExpr admits e
  | choice {e test onTrue onFalse} (items : IsForm "if" [test,onTrue,onFalse] e)
      (tests : CoreExpr admits test) (first : CoreExpr admits onTrue)
      (second : CoreExpr admits onFalse) : CoreExpr admits e
  | option {e test onTrue} (items : IsForm "if" [test,onTrue] e)
      (tests : CoreExpr admits test) (first : CoreExpr admits onTrue) : CoreExpr admits e
  | assign {e value x} (items : IsForm "set!" [.sym x,value] e)
      (part : CoreExpr admits value) : CoreExpr admits e
  | wrapper {e operand keyword}
      (known : keyword = "lift" ∨ keyword = "freeze" ∨ keyword = "run")
      (items : IsForm keyword [operand] e) (part : CoreExpr admits operand) : CoreExpr admits e
  | call {e operator operands} (items : e.formItems? = some (operator :: operands))
      (other : ∀ name, operator = .sym name → isKeyword name = false) (admitted : admits operator)
      (first : CoreExpr admits operator) (parts : ∀ a ∈ operands, CoreExpr admits a) :
      CoreExpr admits e

/-- Without staging, the expression is not a keyword, with which the form around it would be
another one. -/
def Value.KeepsCall (operator : Value) : Prop :=
  ∀ name, operator.unstaged = .sym name → isKeyword name = false

end StagedLisp
