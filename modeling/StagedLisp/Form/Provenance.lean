import StagedLisp.Form.View

/-! Which variables the value of an expression comes from. -/
namespace StagedLisp

/-- The variable whose structure an expression exposes again, through `lift`, `car` and `cdr` only,
and whether a projection is among them. -/
def exposed? : Value → Option (String × Bool)
  | .sym name => some (name,false)
  | .pair _ (.sym keyword) (.pair _ operand _) =>
    if keyword == "car" || keyword == "cdr" then
      (exposed? operand).map fun (name,_) => (name,true)
    else if keyword == "lift" then exposed? operand
    else none
  | _ => none

def aliased? (expr : Value) : Option String :=
  match exposed? expr with
  | some (name,false) => some name
  | _ => none

def projected? (expr : Value) : Option String :=
  match exposed? expr with
  | some (name,true) => some name
  | _ => none

/-- Which parts of a form matter: those from a position on. -/
abbrev Selection := View → Option Nat

mutual

def selected (select : Selection) : Value → List String
  | .sym name => [name]
  | .pair cell head tail =>
    match (View.of? (.pair cell head tail)).bind select with
    | none => []
    | some 0 => spineSelected select 0 tail ++ selected select head
    | some (skip + 1) => spineSelected select skip tail
  | _ => []

def spineSelected (select : Selection) : Nat → Value → List String
  | 0, .pair _ head tail => spineSelected select 0 tail ++ selected select head
  | skip + 1, .pair _ _ tail => spineSelected select skip tail
  | _, _ => []

end

/-- The result of a form is that of its branches, its body or its operand. -/
def resultParts : Selection
  | .conditional _ _ => some 2
  | .wrapper keyword _ => if keyword == "EM" then none else some 1
  | .binding _ => some 2
  | .misfit keyword parts =>
    if (keyword == "let" || keyword == "letrec") && parts.length == 2 then some 2 else none
  | _ => none

def returnedNames (expr : Value) : List String := selected resultParts expr

def structureParts : Selection
  | .inert _ | .lambda _ _ | .setMeta _ => none
  | .conditional _ _ => some 2
  | .binding _ => some 2
  | .misfit keyword parts =>
    if keyword == "lambda" || keyword == "set-meta!" then none
    else if (keyword == "let" || keyword == "letrec") && parts.length == 2 then some 2
    else some 1
  | .call (.sym name) _ => if isScalarName name then none else some 1
  | _ => some 1

def structureNames (expr : Value) : List String := selected structureParts expr

mutual

/-- The assignments `(set! name value)` in an expression, in the order of a walk that visits a form
before its parts and later parts before earlier ones. Quotations and improper lists are skipped. -/
def assignments : Value → List (String × Value)
  | .pair cell head tail =>
    match (Value.pair cell head tail).formItems? with
    | none => []
    | some items =>
      if head.symbol? == some "quote" then []
      else
        (match items with
          | [.sym "set!",.sym target,value] => [(target,value)]
          | _ => []) ++ spineAssignments tail ++ assignments head
  | _ => []

def spineAssignments : Value → List (String × Value)
  | .pair _ head tail => spineAssignments tail ++ assignments head
  | _ => []

end

def allocates : Value → Bool
  | .int _ | .nil => true
  | .pair _ (.sym keyword) tail =>
    if keyword == "quote" || keyword == "cons" || keyword == "list" then true
    else if keyword == "lift" then
      match tail with
      | .pair _ operand _ => allocates operand
      | _ => false
    else isScalarName keyword
  | _ => false

end StagedLisp
