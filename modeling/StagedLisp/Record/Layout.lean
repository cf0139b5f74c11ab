import StagedLisp.Record.Registry
import StagedLisp.Text.Lines

/-! Record types in the generated program: a structure, a scan and a release function for each. -/
namespace StagedLisp.Registry

inductive FieldKind where
  | scalar
  | record (name : String)
  | cell

def fieldKind (r : Registry) (f : Field) : FieldKind :=
  if f.isReference then
    if r.contains f.typeName then .record (Code.identifier f.typeName) else .cell
  else .scalar

def member (r : Registry) (f : Field) : String :=
  let name := Code.identifier f.name
  if f.isWeak then s!"WeakRef* {name};"
  else
    let declaration := match r.fieldKind f with
      | .scalar => s!"long {name};"
      | .record target => s!"struct {target}* {name};"
      | .cell => s!"Obj* {name};"
    if f.strength = .untraced then declaration ++ " /* untraced */" else declaration

def layout (r : Registry) (record : Record) : String :=
  let name := Code.identifier record.name
  Text.lines ([s!"struct {name} \x7b"] ++ record.fields.map (fun f => "    " ++ r.member f) ++
    ["    int mark;","\x7d;",""])

def scanField (r : Registry) (f : Field) : List String :=
  let name := Code.identifier f.name
  if f.isWeak then ["    /* " ++ f.name ++ ": weak, skipped */"]
  else if f.isTraced then
    match r.fieldKind f with
    | .record target => [s!"    scan_{target}(x->{name});"]
    | .cell => [s!"    scan_obj(x->{name});"]
    | .scalar => []
  else []

def scanner (r : Registry) (record : Record) : String :=
  let name := Code.identifier record.name
  Text.lines ([s!"static void* scan_{name}(void* p) \x7b",s!"    {name}* x = p;",
    "    if (!x || x->mark) return p;","    x->mark = 1;"] ++
    record.fields.flatMap r.scanField ++ ["    x->mark = 0;","    return p;","\x7d",""])

def releaseField (r : Registry) (f : Field) : List String :=
  let name := Code.identifier f.name
  match r.fieldKind f with
  | .record target => [s!"    release_{target}(x->{name});"]
  | .cell => [s!"    dec_ref(x->{name});"]
  | .scalar => []

/-- Weak references are invalidated before any strong child goes away. -/
def releaser (r : Registry) (record : Record) : String :=
  let name := Code.identifier record.name
  Text.lines ([s!"static void release_{name}({name}* x) \x7b","    if (!x) return;"] ++
    record.weakFields.map (fun f => "    invalidate_weak(x->" ++ Code.identifier f.name ++ ");") ++
    (record.fields.filter Field.isTraced).flatMap r.releaseField ++
    ["    free(x);","\x7d",""])

/-- All definitions. Names are declared first, so that records may refer to each other. -/
def definitions (r : Registry) : String :=
  if r.records.isEmpty then ""
  else
    let names := r.records.map fun record => Code.identifier record.name
    Text.lines (["","/* Registered types */"] ++
      names.map (fun name => s!"typedef struct {name} {name};") ++ [""]) ++
    String.join (r.records.map r.layout) ++
    Text.lines (names.flatMap (fun name =>
      [s!"static void* scan_{name}(void* p);",s!"static void release_{name}({name}* x);"]) ++
      [""]) ++
    String.join (r.records.map fun record => r.scanner record ++ r.releaser record)

end StagedLisp.Registry
