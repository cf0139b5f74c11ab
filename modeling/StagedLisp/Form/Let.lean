import StagedLisp.Fault

/-! Let forms. The statements of a form are its initialisers, numbered from zero, and then its
body. -/
namespace StagedLisp

structure Binding where
  name : String
  init : Value
deriving Inhabited

structure LetForm where
  kind : LetKind
  bindings : List Binding
  body : Value

namespace LetForm

def binding (kind : LetKind) (entry : Value) : Result Binding :=
  match entry.items? with
  | some [.sym name,init] => .ok ⟨name,init⟩
  | _ => fail (.notBinding kind entry)

def bindingsOf (kind : LetKind) : List Value → List Binding → Result (List Binding)
  | [], read => .ok read
  | entry :: entries, read =>
    match binding kind entry with
    | .error e => .error e
    | .ok b =>
      if read.any (·.name == b.name) then fail (.duplicateBinding kind b.name)
      else bindingsOf kind entries (read ++ [b])

def ofParts (kind : LetKind) (parts : List Value) : Result LetForm :=
  match parts with
  | [entries,body] =>
    match entries.items? with
    | none => fail (.bindingsNotList kind)
    | some entries =>
      match bindingsOf kind entries [] with
      | .error e => .error e
      | .ok bindings => .ok ⟨kind,bindings,body⟩
  | _ => fail (.partCount 2 parts.length kind.keyword)

def ofValue (form : Value) : Result LetForm :=
  let parts (kind : LetKind) : Result LetForm :=
    match form.tail?.bind Value.items? with
    | some parts => ofParts kind parts
    | none => fail (.malformed form)
  match form.headSymbol? with
  | some "let" => parts .plain
  | some "letrec" => parts .recursive
  | _ => fail (.notLetForm form)

def names (form : LetForm) : List String := form.bindings.map Binding.name

def position? (form : LetForm) (name : String) : Option Nat :=
  form.bindings.findIdx? (·.name == name)

def bodyIndex (form : LetForm) : Nat := form.bindings.length

def statement (form : LetForm) (index : Nat) : Value :=
  match form.bindings[index]? with
  | some b => b.init
  | none => form.body

def statements (form : LetForm) : List Value := form.bindings.map Binding.init ++ [form.body]

/-- The names a statement can refer to: all of them in a recursive form, else the earlier ones. -/
def visibleIn (form : LetForm) (index : Nat) : List String :=
  match form.kind with
  | .recursive => form.names
  | .plain => form.names.take index

end LetForm

end StagedLisp
