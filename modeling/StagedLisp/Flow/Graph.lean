import StagedLisp.Form.Names

/-! The control-flow graph of a let form. Each statement is a node, a conditional one node for its
test and a subgraph for each branch, and each initialiser is followed by the definition of its name.
Edges lead to later nodes. -/
namespace StagedLisp.Flow

inductive NodeKind where
  | expr
  | branch
  | define
  | exit
deriving DecidableEq, Inhabited, Repr

structure Node where
  kind : NodeKind
  statement : Nat
  uses : List String := []
  defs : List String := []
  succs : List Nat := []
  preds : List Nat := []
  site : Option Nat := none
deriving DecidableEq, Inhabited, Repr

abbrev Graph := Array Node

abbrev GraphM := StateM Graph

def add (node : Node) : GraphM Nat := modifyGet fun g => (g.size,g.push node)

def successors (g : Graph) (n : Nat) : List Nat :=
  match g[n]? with
  | some node => node.succs
  | none => []

def link (source target : Nat) : GraphM Unit := modify fun g =>
  if (successors g source).contains target then g
  else
    let g := g.modify source fun node => { node with succs := node.succs ++ [target] }
    g.modify target fun node => { node with preds := node.preds ++ [source] }

def linkAll (sources : List Nat) (target : Nat) : GraphM Unit := sources.forM (link · target)

/-- The part of a graph that belongs to an expression: its first node, and the nodes it ends in. -/
structure Region where
  entry : Nat
  exits : List Nat

def conditional? (expr : Value) : Option (Value × Value × Option Value) :=
  match View.of? expr with
  | some (.conditional test [onTrue]) => some (test,onTrue,none)
  | some (.conditional test [onTrue,onFalse]) => some (test,onTrue,some onFalse)
  | _ => none

/-- Builds the region of an expression of a statement that sees the names `visible`. An expression
nested `budget` deep in conditionals is one node that uses all it mentions. -/
def build (visible : List String) (statement : Nat) : (budget : Nat) → Value → GraphM Region
  | 0, expr => do
    let uses := (mentionedNames expr).filter visible.contains
    let node ← add { kind := .expr, statement, uses }
    return ⟨node,[node]⟩
  | budget + 1, expr =>
    let used (expr : Value) : List String := (freeVariables expr).filter visible.contains
    match conditional? expr with
    | none => do
      let node ← add { kind := .expr, statement, uses := used expr }
      return ⟨node,[node]⟩
    | some (test,onTrue,onFalse) => do
      let branch ← add { kind := .branch, statement, uses := used test, site := expr.cell? }
      let first ← build visible statement budget onTrue
      link branch first.entry
      match onFalse with
      | none => return ⟨branch,first.exits ++ [branch]⟩
      | some onFalse =>
        let second ← build visible statement budget onFalse
        link branch second.entry
        return ⟨branch,first.exits ++ second.exits⟩

/-- Adds a statement after the nodes `pending`; the result is what the next one follows. -/
def addStatement (form : LetForm) (budget : Nat) (pending : List Nat) (index : Nat) : GraphM (List Nat) := do
  let region ← build (form.visibleIn index) index budget (form.statement index)
  linkAll pending region.entry
  match form.bindings[index]? with
  | none => return region.exits
  | some b =>
    let define ← add { kind := .define, statement := index, defs := [b.name] }
    linkAll region.exits define
    return [define]

def buildForm (form : LetForm) (budget : Nat) : GraphM Unit := do
  let pending ← (List.range (form.bodyIndex + 1)).foldlM (addStatement form budget) []
  let exit ← add { kind := .exit, statement := form.bodyIndex }
  linkAll pending exit

def ofForm (form : LetForm) (analysisDepth : Nat) : Graph :=
  ((buildForm form analysisDepth).run #[]).2

end StagedLisp.Flow
