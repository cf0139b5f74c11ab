import StagedLisp.Release.Plan

/-! Compiled blocks: declarations, releases and the result, as a release plan orders them. -/
namespace StagedLisp

inductive Step where
  | declare (name : String) (value : Code) (note : Code.Note)
  | assign (name : String) (value : Code)
  | act (action : Code.Action)

def Step.before : Step → Code.Block → Code.Block
  | declare name value note, rest => .declare name value note rest
  | assign name value, rest => .assign name value rest
  | act action, rest => .act action rest

namespace BindingPlan

def note (p : BindingPlan) : Code.Note := ⟨p.name,p.shape,p.escape,p.stack,p.reuses⟩

/-- A declaration, and a flag if the value may be given back on a branch. -/
def declaration (p : BindingPlan) (value : Code) : List Step :=
  .declare p.ident value p.note :: (if p.branchDeaths.isEmpty then [] else [.act (.flag p.ident)])

def opening (p : BindingPlan) : List Step :=
  match p.release with
  | .frozen => [.act (.freeze p.ident)]
  | .unused routine => [.act (.free routine p.ident "ASAP: unused")]
  | _ => []

/-- The release after a statement, which is known by the name it binds. -/
def earlyRelease (p : BindingPlan) (index : Nat) (bound : String) : List Step :=
  match p.release with
  | .early after routine =>
    if after = index then
      [.act (.free routine p.ident (p.name ++ ": dead after " ++ bound))]
    else []
  | _ => []

def closing? (p : BindingPlan) : Option Code.Action :=
  match p.release with
  | .atEnd routine =>
    let remark := p.name ++ ": " ++ p.shape.name ++ ", " ++ routine.name
    if p.branchDeaths.isEmpty then some (.free routine p.ident remark)
    else some (.guardedFree routine p.ident (remark ++ " unless released on a branch"))
  | .frozen => some (.releaseComponent p.ident (p.name ++ ": cyclic, frozen"))
  | .captured => some (.remark (p.name ++ ": captured by closure, no free"))
  | .elided (some owner) => some (.remark (p.name ++ ": released by " ++ owner))
  | .elided none | .borrowed => some (.remark (p.name ++ ": borrowed, no free"))
  | .projected whole => some (.remark (p.name ++ ": borrows from " ++ whole ++ ", no free"))
  | .donated receiver => some (.remark (p.name ++ ": cell reused by " ++ receiver))
  | .unused _ | .early _ _ => none

end BindingPlan

namespace Plans

def afterStatement (plans : Plans) (index : Nat) : List Step :=
  let bound := ((plans[index]?).map BindingPlan.name).getD ""
  ((plans[index]?).map BindingPlan.opening).getD [] ++ plans.flatMap fun p => p.earlyRelease index bound

/-- The statements before the result. The values of a recursive block are complete only when all
of them are assigned, so nothing is released before. -/
def steps (kind : LetKind) (plans : Plans) : List Step :=
  match kind with
  | .plain =>
    plans.zipIdx.flatMap fun (p,i) =>
      (match p.init with | some init => p.declaration init | none => []) ++ plans.afterStatement i
  | .recursive =>
    let declarations := plans.flatMap fun p => if p.init.isSome then p.declaration .null else []
    let assignments := plans.filterMap fun p => p.init.map fun init => Step.assign p.ident init
    declarations ++ assignments ++ (List.range plans.length).flatMap plans.afterStatement

def closing (plans : Plans) : List Code.Action :=
  (plans.reverse.filter (·.init.isSome)).filterMap BindingPlan.closing?

def blockAround (plans : Plans) (kind : LetKind) (result : Code) : Code :=
  .block ((plans.steps kind).foldr Step.before (.finish result plans.closing))

def emit (plans : Plans) (kind : LetKind) (body : Value) : Result Code :=
  body.lift.map (plans.blockAround kind)

end Plans

end StagedLisp
