import StagedLisp.Form.Provenance
import StagedLisp.Table

/-! Shape inference. The bindings of a form are analysed again and again until a pass changes no
shape. Shapes only grow, and names whose structure overlaps share an alias group. -/
namespace StagedLisp

structure ShapeInfo where
  shape : Shape := .unknown
  group : Option Nat := none
deriving DecidableEq, Inhabited, Repr

structure Shapes where
  infos : Table ShapeInfo := []
  nextGroup : Nat := 0
  changed : Bool := false
  skipped : Nat := 0
deriving DecidableEq, Repr

abbrev ShapeM := StateM Shapes

namespace Shapes

def info? (s : Shapes) (name : String) : Option ShapeInfo := s.infos.get? name

def shapeOf (s : Shapes) (name : String) : Shape :=
  match s.info? name with
  | some info => info.shape
  | none => .unknown

def groupOf? (s : Shapes) (name : String) : Option Nat := (s.info? name).bind ShapeInfo.group

def knowing (known : Table Shape) : Shapes :=
  { infos := known.map fun (name,shape) => (name,⟨shape,none⟩) }

def grow (s : Shapes) (name : String) (shape : Shape) : Shapes :=
  match s.info? name with
  | some info =>
    let joined := info.shape.join shape
    if joined = info.shape then s
    else { s with infos := s.infos.set name { info with shape := joined }, changed := true }
  | none => { s with infos := s.infos.set name ⟨shape,none⟩, changed := true }

def enter (s : Shapes) (name : String) (group : Nat) : Shapes :=
  { s with infos := s.infos.set name { (s.info? name).getD {} with group := some group } }

def ensureGroup (s : Shapes) (name : String) : Nat × Shapes :=
  match s.groupOf? name with
  | some group => (group,s)
  | none => (s.nextGroup,{ s.enter name s.nextGroup with nextGroup := s.nextGroup + 1 })

def regroup (s : Shapes) (old new : Nat) : Shapes :=
  { s with infos := s.infos.map fun (name,info) =>
      (name,if info.group = some old then { info with group := some new } else info) }

/-- Puts `name` into the group of `source`, together with the group it was in. -/
def merge (s : Shapes) (name source : String) : Shapes :=
  let (group,s) := s.ensureGroup source
  match s.groupOf? name with
  | some old => if old = group then s else s.regroup old group
  | none => s.enter name group

def overlap (s : Shapes) (a b : String) : Bool :=
  a == b || ((s.groupOf? a).isSome && s.groupOf? a == s.groupOf? b)

def mayAlias (s : Shapes) (a b : Value) : Bool :=
  (structureNames a).any fun l => (structureNames b).any fun r => s.overlap l r

def anyAlias (s : Shapes) : List Value → Bool
  | [] => false
  | a :: rest => rest.any (s.mayAlias a) || s.anyAlias rest

end Shapes

namespace Shape

def joinAll (shapes : List Shape) : Shape := shapes.foldl join unknown

def construction (parts : List Shape) (aliasing : Bool) : Shape :=
  if parts.all (· == tree) then if aliasing then dag else tree
  else if joinAll parts = tree then dag
  else joinAll parts

def ofCall (args : List Shape) : Shape :=
  if joinAll args = unknown then dag else joinAll args

def pass (infer : Value → ShapeM Shape) (form : LetForm) : ShapeM Shape := do
  if form.kind = .recursive then
    modify fun s => form.names.foldl (fun s name => s.grow name .cyclic) s
  form.bindings.forM fun b => do
    let shape ← infer b.init
    modify fun s => s.grow b.name shape
    match exposed? b.init with
    | some (source,_) => if source = b.name then pure () else modify fun s => s.merge b.name source
    | none => pure ()
  infer form.body

/-- A pass over an inner form. Its names mean something else outside it, so what was known of them
is put back, and their changes do not count. -/
def nestedPass (infer : Value → ShapeM Shape) (form : LetForm) : ShapeM Shape := do
  let outer ← get
  set { outer with infos := form.names.foldl Table.erase outer.infos }
  let shape ← pass infer form
  modify fun s =>
    { s with
      changed := outer.changed
      infos := form.names.foldl (fun infos name => match outer.info? name with
          | some info => infos.set name info
          | none => infos.erase name)
        s.infos }
  return shape

/-- The shape of a form, where `infer` is for its parts and `deeper` for the parts of a form among
them. -/
def ofForm (infer deeper : Value → ShapeM Shape) (items : List Value) : ShapeM Shape := do
  let unknownCall (args : List Value) : ShapeM Shape := return ofCall (← args.mapM infer)
  match View.ofItems items with
  | .inert keyword => return if keyword == "menv" then unknown else tree
  | .lambda _ _ | .setMeta _ => return tree
  | .wrapper _ operand => infer operand
  | .scan operand => infer operand
  | .conditional test branches =>
    let _ ← infer test
    let shapes ← branches.mapM infer
    return joinAll ((if branches.length < 2 then tree else unknown) :: shapes)
  | .assign target value =>
    let _ ← infer value
    match target with
    | .sym name => modify fun s => s.grow name .cyclic
    | _ => pure ()
    return cyclic
  | .binding inner => nestedPass deeper inner
  | .misfit keyword parts =>
    match keyword with
    | "lambda" | "set-meta!" => return tree
    | "let" | "letrec" => return unknown
    | "scan" => infer (parts.getLastD (.sym keyword))
    | _ => unknownCall parts
  | .call (.sym name) args =>
    if name == "cons" || name == "list" then
      let shapes ← args.mapM infer
      return construction shapes ((← get).anyAlias args)
    else if name == "car" || name == "cdr" then
      match args with
      | [operand] => infer operand
      | _ => unknownCall args
    else if isScalarName name then
      let _ ← args.mapM infer
      return tree
    else unknownCall args
  | .call _ args => unknownCall args

def ofValue (ofItems : List Value → ShapeM Shape) : Value → ShapeM Shape
  | .int _ | .nil => return tree
  | .sym name => return (← get).shapeOf name
  | .pair cell head tail =>
    match (Value.pair cell head tail).formItems? with
    | some items => ofItems items
    | none => return unknown
  | _ => return unknown

/-- The shape of an expression's value; parts nested `budget` deep are left unknown. A form's
initialisers and body lie two levels below it. -/
def infer : (budget : Nat) → Value → ShapeM Shape
  | 0 => fun _ => do modify fun s => { s with skipped := s.skipped + 1 }; return unknown
  | 1 => ofValue (ofForm (infer 0) (infer 0))
  | budget + 2 => ofValue (ofForm (infer (budget + 1)) (infer budget))

end Shape

structure ShapeResult where
  shapes : Shapes
  body : Shape
  iterations : Nat
deriving DecidableEq, Repr

namespace ShapeResult

def iterate (pass : ShapeM Shape) : (rounds iterations : Nat) → Shapes → Shape → ShapeResult
  | 0, iterations, shapes, body => ⟨shapes,body,iterations⟩
  | rounds + 1, iterations, shapes, _ =>
    let (body,shapes) := pass.run { shapes with changed := false }
    if shapes.changed then iterate pass rounds (iterations + 1) shapes body
    else ⟨shapes,body,iterations⟩

/-- Each binding can grow three times, and a last pass finds nothing to change. -/
def roundLimit (form : LetForm) : Nat := 3 * max form.bindings.length 1 + 1

def ofForm (form : LetForm) (start : Shapes) (analysisDepth : Nat) : ShapeResult :=
  iterate (Shape.pass (Shape.infer (analysisDepth - 1)) form) (roundLimit form) 0 start .unknown

end ShapeResult

end StagedLisp
