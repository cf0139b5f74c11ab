import StagedLisp.Form.View

/-! The names that expressions mention. -/
namespace StagedLisp

def addName (names : List String) (name : String) : List String :=
  if names.contains name then names else names ++ [name]

def walkLimit : Nat := 1024

/-- Extends `found` by the names that occur free in an expression, apart from `bound` ones. Parts
nested `budget` deep are left out. -/
def freeNames : (budget : Nat) → (bound found : List String) → Value → List String
  | 0, _, found, _ => found
  | _ + 1, bound, found, .sym name => if bound.contains name then found else addName found name
  | budget + 1, bound, found, form =>
    let each (parts : List Value) : List String := parts.foldl (freeNames budget bound) found
    match View.of? form with
    | none => found
    | some view =>
      match view with
      | .inert _ => found
      | .lambda params body => freeNames budget (bound ++ params) found body
      | .binding inner =>
        inner.statements.zipIdx.foldl
          (fun found (part,index) => freeNames budget (bound ++ inner.visibleIn index) found part)
          found
      | .setMeta handler => freeNames budget bound found handler
      | .scan operand => freeNames budget bound found operand
      | .conditional test branches => each (test :: branches)
      | .assign target value => each [target,value]
      | .wrapper _ operand => freeNames budget bound found operand
      | .misfit keyword parts =>
        if (keyword == "let" || keyword == "letrec") && parts.length == 2 then found
        else each parts
      | .call head args => each (head :: args)

def freeVariables (expr : Value) : List String := freeNames (walkLimit + 1) [] [] expr

mutual

/-- The symbols of an expression outside quotations, later parts first. Binders do not matter. -/
def occurrences : Value → List String
  | .sym name => [name]
  | .pair _ head tail =>
    if head.symbol? == some "quote" then [] else spineOccurrences tail ++ occurrences head
  | _ => []

def spineOccurrences : Value → List String
  | .pair _ head tail => spineOccurrences tail ++ occurrences head
  | _ => []

end

def mentionedNames (expr : Value) : List String := (occurrences expr).foldl addName []

mutual

def assigns (name : String) : Value → Bool
  | .pair _ head tail =>
    if head.symbol? == some "quote" then false
    else (head.symbol? == some "set!" && (tail.head?.bind Value.symbol?) == some name) ||
      spineAssigns name tail || assigns name head
  | _ => false

def spineAssigns (name : String) : Value → Bool
  | .pair _ head tail => spineAssigns name tail || assigns name head
  | _ => false

end

end StagedLisp
