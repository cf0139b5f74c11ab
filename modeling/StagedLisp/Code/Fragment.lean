import StagedLisp.Code.Identifier
import StagedLisp.Shape.Basic
import StagedLisp.Usage.Escape
import StagedLisp.Text.Search

/-! Fragments of the generated program. An expression is a tree; a compiled block is the chain of
its statements, which ends in the block's result. `render` gives the text. -/
namespace StagedLisp

namespace Code

inductive Storage where
  | heap
  | pool
  | reused (donor : String)
deriving DecidableEq, Repr

/-- A release on entry to one branch of a conditional, which also sets the variable's flag. -/
structure Drop where
  routine : Routine
  target : String
deriving DecidableEq, Repr

structure Note where
  name : String
  shape : Shape
  escape : Escape
  stack : Bool
  reuses : Option String
deriving DecidableEq, Repr

/-- Statements that involve no expression. -/
inductive Action where
  | flag (target : String)
  | freeze (target : String)
  | free (routine : Routine) (target : String) (remark : String)
  | guardedFree (routine : Routine) (target : String) (remark : String)
  | releaseComponent (target : String) (remark : String)
  | remark (text : String)
deriving DecidableEq, Repr

def flagName (target : String) : String := target ++ "_freed"

def freeCall (routine : Routine) (target : String) : String :=
  routine.name ++ "(" ++ target ++ ")"

def comment (text : String) : String := "/* " ++ text ++ " */"

def Drop.render (d : Drop) : String :=
  freeCall d.routine d.target ++ ", " ++ flagName d.target ++ " = 1"

def Note.words (n : Note) : String :=
  n.name ++ ": shape " ++ n.shape.name ++ ", escape " ++ n.escape.name ++
    (if n.stack then ", stack candidate" else "") ++
    (match n.reuses with | some donor => ", reuses " ++ donor | none => "")

def Note.render (n : Note) : String := comment n.words

def Action.statement : Action → String
  | flag target => "int " ++ flagName target ++ " = 0;"
  | freeze target => "freeze_cyclic(" ++ target ++ ");"
  | free routine target _ => freeCall routine target ++ ";"
  | guardedFree routine target _ =>
    "if (!" ++ flagName target ++ ") " ++ freeCall routine target ++ ";"
  | releaseComponent target _ => "release_scc(" ++ target ++ "->scc_id);"
  | remark _ => ""

def Action.remark? : Action → Option String
  | flag _ | freeze _ => none
  | free _ _ text | guardedFree _ _ text | releaseComponent _ text | remark text => some text

def Action.render : Action → String
  | remark text => comment text
  | action =>
    action.statement ++ (match action.remark? with | some text => " " ++ comment text | none => "")

end Code

mutual

inductive Code where
  | text (source : String)
  | var (name : String)
  | null
  /-- A procedure, which leaves only a comment behind. -/
  | procedure (params captured : List String)
  | int (storage : Code.Storage) (value : Int64)
  | pair (donor : Option String) (head tail : Code)
  | call1 (helper : String) (operand : Code)
  | call2 (helper : String) (left right : Code)
  | conditional (test onTrue onFalse : Code)
  | dropping (drops : List Code.Drop) (value : Code)
  | assign (place value : Code)
  | block (body : Code.Block)

inductive Code.Block where
  | declare (name : String) (value : Code) (note : Code.Note) (rest : Code.Block)
  | assign (name : String) (value : Code) (rest : Code.Block)
  | act (action : Code.Action) (rest : Code.Block)
  | finish (value : Code) (closing : List Code.Action)

end

instance : Inhabited Code := ⟨.null⟩

namespace Code

def taken (donor : String) : String := "try_reuse(" ++ donor ++ ", sizeof(Obj))"

def indented (line : String) : String := "  " ++ Text.replaceChar '\n' "\n  " line ++ "\n"

def intText : Storage → Int64 → String
  | .heap, n => "mk_int(" ++ toString n.toInt ++ ")"
  | .pool, n => "mk_int_stack(" ++ toString n.toInt ++ ")"
  | .reused donor, n => "reuse_as_int(" ++ taken donor ++ ", " ++ toString n.toInt ++ ")"

def procedureText (params captured : List String) : String :=
  "NULL " ++ comment ("closure(" ++ " ".intercalate params ++ ") captures " ++
    (if captured.isEmpty then "nothing" else " ".intercalate captured))

mutual

def render : Code → String
  | text source => source
  | var name => name
  | null => "NULL"
  | procedure params captured => procedureText params captured
  | int storage n => intText storage n
  | pair none head tail => "mk_pair(" ++ head.render ++ ", " ++ tail.render ++ ")"
  | pair (some donor) head tail =>
    "reuse_as_pair(" ++ taken donor ++ ", " ++ head.render ++ ", " ++ tail.render ++ ")"
  | call1 helper operand => helper ++ "(" ++ operand.render ++ ")"
  | call2 helper left right => helper ++ "(" ++ left.render ++ ", " ++ right.render ++ ")"
  | conditional test onTrue onFalse =>
    "(is_true(" ++ test.render ++ ") ? " ++ onTrue.render ++ " : " ++ onFalse.render ++ ")"
  | dropping drops value =>
    "(" ++ ", ".intercalate (drops.map Drop.render) ++ ", " ++ value.render ++ ")"
  | assign place value => "(" ++ place.render ++ " = " ++ value.render ++ ")"
  | block body => "(\x7b\n" ++ String.join (body.lines.map indented) ++ "\x7d)"

def Block.lines : Block → List String
  | .declare name value note rest =>
    ("Obj* " ++ name ++ " = " ++ value.render ++ "; " ++ note.render) :: rest.lines
  | .assign name value rest => (name ++ " = " ++ value.render ++ ";") :: rest.lines
  | .act action rest => action.render :: rest.lines
  | .finish value closing =>
    ("Obj* " ++ resultName ++ " = " ++ value.render ++ ";") ::
      (closing.map Action.render ++ [resultName ++ ";"])

end

end Code

end StagedLisp
