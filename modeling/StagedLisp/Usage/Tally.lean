import StagedLisp.Form.Names
import StagedLisp.Form.Provenance
import StagedLisp.Options

/-! Uses of the bindings of a block: how often and where each is used, how far it escapes, whether a
procedure captures it and whether it is stored in a pair. -/
namespace StagedLisp

structure Usage where
  name : String
  uses : Nat := 0
  lastDepth : Nat := 0
  escape : Escape := .inside
  captured : Bool := false
  stored : Bool := false
deriving DecidableEq, Repr

/-- The usages of the tracked names, and the number of parts left out for their depth. -/
structure Tally where
  usages : List Usage := []
  skipped : Nat := 0
deriving DecidableEq, Repr

namespace Tally

def track (t : Tally) (name : String) : Tally :=
  if t.usages.any (·.name == name) then t else { t with usages := t.usages ++ [{ name }] }

def tracking (names : List String) : Tally := names.foldl track {}

def usage? (t : Tally) (name : String) : Option Usage := t.usages.find? (·.name == name)

/-- Changes the usage of a name that no inner binder hides. -/
def update (t : Tally) (hidden : List String) (name : String) (f : Usage → Usage) : Tally :=
  if hidden.contains name then t
  else { t with usages := t.usages.map fun u => if u.name == name then f u else u }

/-- A part nested too deep: every name in it may be used in any way. -/
def skip (t : Tally) (hidden : List String) (depth : Nat) (part : Value) : Tally :=
  let worst (u : Usage) : Usage :=
    { u with escape := .everywhere, captured := true, uses := u.uses + 1, lastDepth := depth }
  let t := (mentionedNames part).foldl (fun t name => t.update hidden name worst) t
  { t with skipped := t.skipped + 1 }

/-- Counts the uses in an expression at the given depth; parts nested `budget` deep are skipped. -/
def count : (budget depth : Nat) → (inBody : Bool) → (hidden : List String) → Tally → Value → Tally
  | 0, depth, _, hidden, t, part => t.skip hidden depth part
  | _ + 1, depth, inBody, hidden, t, .sym name =>
    t.update hidden name fun u =>
      { u with uses := u.uses + 1, lastDepth := depth, captured := u.captured || inBody }
  | budget + 1, depth, inBody, hidden, t, form =>
    let each (parts : List Value) : Tally :=
      parts.foldl (count budget (depth + 1) inBody hidden) t
    match form.formItems? with
    | none => t
    | some items =>
      match View.ofItems items with
      | .inert _ => t
      | .lambda params body => count budget (depth + 1) true (hidden ++ params) t body
      | .binding inner =>
        inner.statements.zipIdx.foldl (fun t (part,index) =>
            count budget (depth + 1) inBody (hidden ++ inner.visibleIn index) t part)
          t
      | .setMeta handler => each [handler]
      | .scan operand => if items.length = 3 then each [operand] else each items
      | .misfit keyword parts =>
        if keyword == "let" || keyword == "letrec" then each parts else each items
      | _ => each items

/-- How far the statements of a let form escape when the form itself escapes by `outer`. -/
def statementEscape (form : LetForm) (outer : Escape) (index : Nat) : Escape :=
  match form.bindings[index]? with
  | none => outer
  | some b =>
    match form.kind with
    | .recursive => .everywhere
    | .plain => if (returnedNames form.body).contains b.name then outer else .inside

/-- Joins into each name of an expression how far its position escapes. -/
def spread : (budget depth : Nat) → (hidden : List String) → Escape → Tally → Value → Tally
  | 0, depth, hidden, _, t, part => t.skip hidden depth part
  | _ + 1, _, hidden, outer, t, .sym name =>
    t.update hidden name fun u => { u with escape := u.escape.join outer }
  | budget + 1, depth, hidden, outer, t, form =>
    let part (escape : Escape) (t : Tally) (part : Value) : Tally :=
      spread budget (depth + 1) hidden escape t part
    let call (head : Value) (args : List Value) : Tally :=
      let constructs := head.symbol? == some "cons" || head.symbol? == some "list"
      args.foldl (fun t arg =>
          let t := match arg with
            | .sym name =>
              if constructs then t.update hidden name fun u => { u with stored := true } else t
            | _ => t
          part (outer.join .argument) t arg)
        (part .inside t head)
    match View.of? form with
    | none => t
    | some view =>
      match view with
      | .inert _ => t
      | .lambda params body => spread budget (depth + 1) (hidden ++ params) .everywhere t body
      | .binding inner =>
        inner.statements.zipIdx.foldl (fun t (part,index) =>
            spread budget (depth + 1) (hidden ++ inner.visibleIn index) (statementEscape inner outer index) t part)
          t
      | .setMeta handler => part .everywhere t handler
      | .scan operand => part (outer.join .argument) t operand
      | .conditional test branches => branches.foldl (part outer) (part .inside t test)
      | .assign target value => part .everywhere (part .everywhere t target) value
      | .wrapper _ operand => part outer t operand
      | .misfit keyword parts =>
        if keyword == "let" || keyword == "letrec" then parts.foldl (part .everywhere) t
        else call (.sym keyword) parts
      | .call head args => call head args

/-- The names of a form that a statement does not see: in a plain form, its own and later ones. -/
def hiddenIn (form : LetForm) (index : Nat) : List String :=
  match form.kind with
  | .recursive => []
  | .plain => form.names.drop index

/-- The usages of a form's bindings. The result of the form is handed to what encloses it. -/
def ofForm (form : LetForm) (analysisDepth : Nat) : Tally :=
  let statements := form.statements.zipIdx
  let counted := statements.foldl
    (fun t (part,index) => count analysisDepth 1 false (hiddenIn form index) t part)
    (tracking form.names)
  statements.foldl (fun t (part,index) =>
      spread analysisDepth 1 (hiddenIn form index) (statementEscape form .argument index) t part)
    counted

end Tally

end StagedLisp
