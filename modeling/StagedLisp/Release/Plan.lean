import StagedLisp.Analysis
import StagedLisp.Value.Lift

/-! Release plans: for each binding of a compiled block, how its value is built and how and when its
storage is given back. -/
namespace StagedLisp

inductive Release where
  /-- A procedure keeps the value beyond the block. -/
  | captured
  /-- Another name of the same storage gives it back, if the block does at all. -/
  | elided (owner : Option String)
  /-- The storage belongs to someone outside the block. -/
  | borrowed
  /-- The value is a part of this binding's, and goes with it. -/
  | projected (whole : String)
  | donated (receiver : String)
  | unused (routine : Routine)
  | early (after : Nat) (routine : Routine)
  | atEnd (routine : Routine)
  /-- Frozen after the declaration, and given back with its component after the body. -/
  | frozen
deriving DecidableEq, Repr

def Release.isOwn : Release → Bool
  | unused _ | early _ _ | donated _ | atEnd _ | frozen => true
  | captured | elided _ | borrowed | projected _ => false

structure BindingPlan where
  name : String
  ident : String
  /-- How the value is built; nothing for a value that is used while compiling only. -/
  init : Option Code
  shape : Shape
  escape : Escape
  stack : Bool
  reuses : Option String := none
  release : Release
  /-- The branches of the body on whose entry the value is given back. -/
  branchDeaths : List (Nat × Nat) := []

def Code.reusing? (donor : String) : Code → Option Code
  | .int .heap n => some (.int (.reused donor) n)
  | .pair none head tail => some (.pair (some donor) head tail)
  | .text source =>
    match Text.after? "mk_pair(" source with
    | some args => some (.text ("reuse_as_pair(" ++ Code.taken donor ++ ", " ++ args))
    | none =>
      match Text.after? "mk_int(" source with
      | some args => some (.text ("reuse_as_int(" ++ Code.taken donor ++ ", " ++ args))
      | none => none
  | _ => none

def Code.pooled : Code → Code
  | .int .heap n => .int .pool n
  | .text source =>
    match Text.after? "mk_int(" source with
    | some args => .text ("mk_int_stack(" ++ args)
    | none => .text source
  | code => code

namespace BindingPlan

def releaseOf (a : Analysis) (options : Options) (name : String) (shape : Shape) : Release :=
  let usage := a.usage.usage? name
  if usage.any Usage.captured || a.partCaptured name then .captured
  else match a.ownership.projectionOf? name with
    | some whole => .projected whole
    | none =>
      if a.ownership.elidesDecrement name then
        .elided ((a.ownership.owner? name).filter (· != name))
      else match a.ownership.routine? name shape with
        | none => .borrowed
        | some routine =>
          if usage.any (·.uses == 0) then .unused routine
          else if options.freezeCyclic && shape = .cyclic && a.liveness.isUnassigned name then
            .frozen
          else match a.earlyStatement? name with
            | some after => .early after routine
            | none => .atEnd routine

def ofBinding (a : Analysis) (options : Options) (b : Binding) (value : Value) : BindingPlan :=
  let init := if value.isMaterial then value.lift.toOption else none
  let shape := a.shapeOf b.name
  { name := b.name
    ident := Code.identifier b.name
    init
    shape
    escape := ((a.usage.usage? b.name).map Usage.escape).getD .everywhere
    stack := a.isStackCandidate b.name
    release := if init.isSome then releaseOf a options b.name shape else .borrowed }

def isEarly (p : BindingPlan) : Bool :=
  match p.release with
  | .early _ _ => true
  | _ => false

def usePool (p : BindingPlan) : BindingPlan :=
  if p.stack && p.reuses.isNone then { p with init := p.init.map Code.pooled } else p

/-- A value that no other name reads may be given back on a branch where it is dead. -/
def onBranches (a : Analysis) (p : BindingPlan) : BindingPlan :=
  match p.release with
  | .atEnd _ =>
    if a.ownership.hasDependents p.name then p
    else { p with branchDeaths := a.liveness.branchDeaths p.name a.names.length }
  | _ => p

end BindingPlan

abbrev Plans := List BindingPlan

namespace Plans

def plan? (plans : Plans) (name : String) : Option BindingPlan :=
  List.find? (fun p : BindingPlan => p.name == name) plans

def update (plans : Plans) (name : String) (f : BindingPlan → BindingPlan) : Plans :=
  plans.map fun p => if p.name == name then f p else p

/-- Lets a binding that is released early give its cell to another, if that one's constructor can
take it. -/
def donate (plans : Plans) (pair : ReusePair) : Plans :=
  match plans.plan? pair.freed, plans.plan? pair.alloc with
  | some donor, some receiver =>
    if donor.isEarly then
      match receiver.init.bind (Code.reusing? donor.ident) with
      | none => plans
      | some init =>
        (plans.update pair.alloc fun p => { p with init := some init, reuses := some pair.freed })
          |>.update pair.freed fun p => { p with release := .donated pair.alloc }
    else plans
  | _, _ => plans

def ofForm (form : LetForm) (values : List Value) (a : Analysis) (options : Options) : Plans :=
  let plans := (form.bindings.zip values).map fun (b,value) =>
    BindingPlan.ofBinding a options b value
  let plans := if options.reuse then a.reuse.pairs.foldl donate plans else plans
  let plans := if options.poolIntegers then plans.map BindingPlan.usePool else plans
  plans.map (BindingPlan.onBranches a)

end Plans

structure BranchRelease where
  site : Nat
  branch : Nat
  drop : Code.Drop
deriving DecidableEq, Repr

def BindingPlan.branchReleases (p : BindingPlan) : List BranchRelease :=
  match p.release with
  | .atEnd routine => p.branchDeaths.map fun (site,branch) => ⟨site,branch,⟨routine,p.ident⟩⟩
  | _ => []

def Plans.branchReleases (plans : Plans) : List BranchRelease :=
  plans.flatMap BindingPlan.branchReleases

end StagedLisp
