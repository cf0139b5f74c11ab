import StagedLisp.Form.Let

/-! The syntax of forms. A keyword decides how the parts of a form are used, whatever names are in
scope; `View` shows these parts. -/
namespace StagedLisp

def keywords : List String :=
  ["let","if","quote","lift","lambda","EM","set-meta!","scan","letrec","set!","run",
    "deftype","freeze","menv"]

def isKeyword (name : String) : Bool := keywords.contains name

def paramNames (params : Value) : List String := params.elements.filterMap Value.symbol?

inductive View where
  /-- `quote`, `deftype` and `menv`: no part is evaluated. -/
  | inert (keyword : String)
  | lambda (params : List String) (body : Value)
  | binding (form : LetForm)
  | setMeta (handler : Value)
  | scan (operand : Value)
  | conditional (test : Value) (branches : List Value)
  | assign (target value : Value)
  /-- `lift`, `freeze`, `run` and `EM`: the value is that of the operand. -/
  | wrapper (keyword : String) (operand : Value)
  | misfit (keyword : String) (parts : List Value)
  | call (head : Value) (args : List Value)

namespace View

def ofKeyword (keyword : String) (parts : List Value) : View :=
  match keyword with
  | "quote" | "deftype" | "menv" => inert keyword
  | "lambda" => match parts with
    | [params,body] => lambda (paramNames params) body
    | _ => misfit keyword parts
  | "let" => match LetForm.ofParts .plain parts with
    | .ok form => binding form
    | .error _ => misfit keyword parts
  | "letrec" => match LetForm.ofParts .recursive parts with
    | .ok form => binding form
    | .error _ => misfit keyword parts
  | "set-meta!" => match parts with
    | [_,handler] => setMeta handler
    | _ => misfit keyword parts
  | "scan" => match parts with
    | [operand] => scan operand
    | [.sym _,operand] => scan operand
    | _ => misfit keyword parts
  | "if" => match parts with
    | test :: branches => conditional test branches
    | [] => misfit keyword parts
  | "set!" => match parts with
    | [target,value] => assign target value
    | _ => misfit keyword parts
  | "lift" | "freeze" | "run" | "EM" => match parts with
    | [operand] => wrapper keyword operand
    | _ => misfit keyword parts
  | _ => call (.sym keyword) parts

def ofItems : List Value → View
  | .sym keyword :: parts => ofKeyword keyword parts
  | head :: parts => call head parts
  | [] => call .nil []

def of? (v : Value) : Option View := v.formItems?.map ofItems

end View

end StagedLisp
