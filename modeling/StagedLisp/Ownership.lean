import StagedLisp.Flow.Liveness
import StagedLisp.Form.Provenance
import StagedLisp.Table

/-! Who owns the storage of a binding. A binding may be another name for one, may read a part of
one, or may be new; of all names of one storage, one gives it back. -/
namespace StagedLisp

structure Holding where
  /-- Provably the only reference to a new cell. -/
  unique : Bool := false
  borrowed : Bool := false
  aliasOf : Option String := none
  aliases : List String := []
  projectionOf : Option String := none
  projections : List String := []
  lastUse : Option Nat := none
  declared : Bool := false
deriving DecidableEq, Inhabited, Repr

abbrev Ownership := Table Holding

namespace Ownership

def aliasOf? (o : Ownership) (name : String) : Option String := (o.get? name).bind Holding.aliasOf

def follow (o : Ownership) : (steps : Nat) → String → String
  | 0, name => name
  | steps + 1, name =>
    match o.aliasOf? name with
    | some next => if next = name then name else follow o steps next
    | none => name

def root (o : Ownership) (name : String) : String := follow o (o.length + 1) name

/-- Changes the holding of a name; one that is new belongs to someone outside the block. -/
def amend (o : Ownership) (name : String) (f : Holding → Holding) : Ownership :=
  o.set name (f ((o.get? name).getD { borrowed := true }))

def adjust (o : Ownership) (name : String) (f : Holding → Holding) : Ownership :=
  match o.get? name with
  | some h => o.set name (f h)
  | none => o

/-- Records `name` as another name for the root of `source`, which is also the result. -/
def attachAlias (o : Ownership) (name source : String) : String × Ownership :=
  let root := o.root source
  (root,o.amend root fun h => { h with unique := false, aliases := addName h.aliases name })

/-- Records `part` as reading a part of the storage of `whole`, and gives the name that storage goes
by. A part of a part belongs to the first whole. -/
def attachProjection (o : Ownership) (part whole : String) : String × Ownership :=
  let root := o.root whole
  let owner := ((o.get? root).bind Holding.projectionOf).getD root
  (owner,o.amend owner fun h => { h with projections := addName h.projections part })

def ownsStructure (o : Ownership) (expr : Value) : Bool :=
  (structureNames expr).all fun name => (o.get? name).any Holding.declared

/-- The holding of a new binding, before what was known of its name is taken over. -/
def classify (o : Ownership) (l : Liveness) (b : Binding) : Holding × Ownership :=
  let base : Holding := { declared := true, lastUse := l.lastStatement? b.name }
  match exposed? b.init with
  | some (source,isPart) =>
    if source = b.name then
      ({ base with unique := allocates b.init && o.ownsStructure b.init },o)
    else if isPart then
      let (owner,o) := o.attachProjection b.name source
      ({ base with projectionOf := some owner },o)
    else
      let (root,o) := o.attachAlias b.name source
      ({ base with aliasOf := some root },o)
  | none => ({ base with unique := allocates b.init && o.ownsStructure b.init },o)

/-- Declares a binding. Names that were attached to it beforehand stay attached. -/
def declare (l : Liveness) (o : Ownership) (b : Binding) : Ownership :=
  let (h,o) := o.classify l b
  match o.get? b.name with
  | some known =>
    o.set b.name { h with aliases := known.aliases, projections := known.projections, unique := false }
  | none => o.set b.name h

/-- An assignment makes its target another name for the value's root, or else no longer unique. -/
def assign (o : Ownership) (target : String) (value : Value) : Ownership :=
  match aliased? value with
  | some source =>
    if source = target then o.adjust target fun h => { h with unique := false }
    else
      let (root,o) := o.attachAlias target source
      if root = target then o
      else o.set target { (o.get? target).getD {} with aliasOf := some root, unique := false }
  | none => o.adjust target fun h => { h with unique := false }

def ofForm (form : LetForm) (l : Liveness) : Ownership :=
  let declared := form.bindings.foldl (declare l) []
  (form.statements.flatMap assignments).foldl (fun o (target,value) => o.assign target value) declared

def projections (o : Ownership) (name : String) : List String :=
  match o.get? name with
  | some h => h.projections
  | none => []

def projectionOf? (o : Ownership) (name : String) : Option String :=
  (o.get? name).bind Holding.projectionOf

/-- The last statement that needs the storage of a name, be it through a part. -/
def releasePoint? (o : Ownership) (name : String) : Option Nat :=
  match o.get? name with
  | none => none
  | some h =>
    (h.projections.filterMap (fun part => (o.get? part).bind Holding.lastUse) ++ h.lastUse.toList).max?

def isLater : Option Nat → Option Nat → Bool
  | some a, some b => b < a
  | some _, none => true
  | none, _ => false

/-- The declared name used last among a root and its aliases; the first of those with equal use. -/
def lastUsed (o : Ownership) (root : String) (aliases : List String) : String :=
  let declared := aliases.filter fun name => (o.get? name).any Holding.declared
  declared.foldl (fun best name => if isLater (o.releasePoint? name) (o.releasePoint? best) then name else best)
    root

def owner? (o : Ownership) (name : String) : Option String :=
  let root := o.root name
  match o.get? root with
  | some h => if h.declared then some (o.lastUsed root h.aliases) else none
  | none => none

def hasDependents (o : Ownership) (name : String) : Bool :=
  (o.get? name).any fun h => !h.aliases.isEmpty || !h.projections.isEmpty

def isUnique (o : Ownership) (name : String) : Bool := (o.get? name).any Holding.unique

def isBorrowed (o : Ownership) (name : String) : Bool := (o.get? name).any Holding.borrowed

def elidesIncrement (o : Ownership) (name : String) : Bool :=
  (o.get? name).any fun h => h.borrowed || h.aliasOf.isSome || h.projectionOf.isSome

def elidesDecrement (o : Ownership) (name : String) : Bool :=
  match o.get? name with
  | none => false
  | some h => h.borrowed || h.projectionOf.isSome || o.owner? name != some name

def routine? (o : Ownership) (name : String) (shape : Shape) : Option Routine :=
  if o.isBorrowed name || (o.projectionOf? name).isSome then none
  else if o.isUnique name && shape = .dag then some .freeUnique
  else some shape.routine

end Ownership

end StagedLisp
