import StagedLisp.Value.Basic
import StagedLisp.Text.Quoted

/-! The text of a value, as a user sees it and with its constructor. -/
namespace StagedLisp.Value

mutual

def text : Value → String
  | int n => toString n.toInt
  | sym name => name
  | nil => "()"
  | pair _ head tail => "(" ++ head.text ++ tail.tailText ++ ")"
  | prim op => "#<prim:" ++ op.name ++ ">"
  | closure _ _ _ _ => "#<closure>"
  | code fragment => fragment.render
  | level _ => "#<menv>"

def tailText : Value → String
  | nil => ""
  | pair _ head tail => " " ++ head.text ++ tail.tailText
  | int n => " . " ++ toString n.toInt
  | sym name => " . " ++ name
  | prim op => " . #<prim:" ++ op.name ++ ">"
  | closure _ _ _ _ => " . #<closure>"
  | code fragment => " . " ++ fragment.render
  | level _ => " . #<menv>"

end

def detailed (v : Value) : String :=
  match v with
  | int _ => "Int(" ++ v.text ++ ")"
  | sym name => "Sym(" ++ name ++ ")"
  | nil => "Nil"
  | pair _ _ _ => "List(" ++ v.text ++ ")"
  | prim op => "Prim(" ++ op.name ++ ")"
  | closure _ params body _ =>
    "Closure(params=" ++ Text.quotedList params ++ ", body=" ++ body.text ++ ")"
  | code fragment => "Code(" ++ fragment.render ++ ")"
  | level _ => "MEnv"

end StagedLisp.Value
