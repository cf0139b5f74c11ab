import StagedLisp.Ownership
import StagedLisp.Reuse
import StagedLisp.Shape.Inference
import StagedLisp.Usage.Tally

/-! All that is found out about a let form before it is compiled. -/
namespace StagedLisp

structure Analysis where
  usage : Tally
  shapes : ShapeResult
  liveness : Liveness
  ownership : Ownership
  reuse : Reuse
  names : List String
  earlyRelease : Bool

namespace Analysis

def shapeOf (a : Analysis) (name : String) : Shape := a.shapes.shapes.shapeOf name

def bindingShapes (a : Analysis) : List (String × Shape) :=
  a.names.map fun name => (name,a.shapeOf name)

def isStackCandidate (a : Analysis) (name : String) : Bool :=
  (a.usage.usage? name).any fun u => u.escape = .inside && !u.captured

def outlives (a : Analysis) (name : String) : Bool :=
  (a.usage.usage? name).any fun u => u.captured || u.stored || u.escape = .everywhere

def earlyStatement? (a : Analysis) (name : String) : Option Nat :=
  if !a.earlyRelease then none
  else match a.usage.usage? name with
    | none => none
    | some u =>
      if u.uses = 0 || a.outlives name || a.ownership.elidesDecrement name ||
          (a.ownership.projections name).any a.outlives then none
      else (a.ownership.releasePoint? name).filter (· < a.names.length)

def partCaptured (a : Analysis) (name : String) : Bool :=
  (a.ownership.projections name).any fun part => (a.usage.usage? part).any Usage.captured

/-- Analyses a form; `known` are the shapes of compiled bindings around it. -/
def ofForm (form : LetForm) (known : Table Shape) (options : Options) : Analysis :=
  let liveness := Liveness.ofForm form options.livenessCap options.analysisDepth
  let a : Analysis := {
    usage := Tally.ofForm form options.analysisDepth
    shapes := ShapeResult.ofForm form (.knowing known) options.analysisDepth
    liveness
    ownership := Ownership.ofForm form liveness
    reuse := {}
    names := form.names
    earlyRelease := options.earlyRelease }
  if options.reuse then { a with reuse := Reuse.ofForm form liveness a.earlyStatement? } else a

end Analysis

end StagedLisp
