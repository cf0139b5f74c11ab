import StagedLisp.Proofs.Eval.Frame
import StagedLisp.Proofs.Release.Scope

/-! Expressions whose fragments stay in scope. The generated program has a variable for a binding
only if the form around it is compiled and the value of the binding can be built there. So
assignments are to bindings that surely have one, or of constants, and of the bindings of a
recursive form all have one, or the form is not compiled. -/
namespace StagedLisp

open List LetForm Value

theorem Value.isData_datum {v : Value} (data : v.isData) : v.isDatum := by
  induction v with
  | pair cell head tail ihHead ihTail =>
    obtain ⟨first,second⟩ := Bool.and_eq_true_iff.mp data
    exact Bool.and_eq_true_iff.mpr ⟨ihHead first,ihTail second⟩
  | int | nil => rfl
  | _ => cases data

/-- What is known of the value of an expression. -/
inductive Forecast where
  | anything
  | fragment
  | data
  | datum
  | procedure
deriving DecidableEq, Repr

namespace Forecast

def Tells : Forecast → Value → Prop
  | anything,_ => True
  | fragment,v => v.isCode
  | data,v => v.isData
  | datum,v => v.isDatum
  | procedure,v => v.isCode = false

def isVariable : Forecast → Bool
  | fragment | data => true
  | _ => false

def isConstant : Forecast → Bool
  | data | datum => true
  | _ => false

def isSolid : Forecast → Bool
  | data | datum | procedure => true
  | _ => false

def chosen (test onTrue onFalse : Forecast) : Forecast :=
  if test = fragment then fragment
  else if onTrue = onFalse ∧ (onTrue = fragment ∨ test.isSolid) then onTrue
  else anything

variable {o : Forecast} {v : Value}

theorem Tells.material (tells : o.Tells v) (known : o.isVariable) : v.isMaterial := by
  cases o with
  | fragment =>
    cases v with
    | code => rfl
    | _ => cases tells
  | data => exact isStaged_material (by rw [isStaged,tells]; rfl)
  | _ => cases known

theorem Tells.constant (tells : o.Tells v) (known : o.isConstant) : v.isDatum := by
  cases o with
  | data => exact isData_datum tells
  | datum => exact tells
  | _ => cases known

theorem Tells.solid (tells : o.Tells v) (known : o.isSolid) : v.isCode = false := by
  cases o with
  | data => exact isDatum_not_code (tells.constant rfl)
  | datum => exact isDatum_not_code tells
  | procedure => exact tells
  | _ => cases known

theorem Tells.code {u : Value} (tells : o.Tells v) (staged : v.isCode) (other : u.isCode) : o.Tells u := by
  cases o with
  | anything => trivial
  | fragment => exact other
  | _ => cases staged.symm.trans (tells.solid rfl)

section Choice

variable {test onTrue onFalse : Forecast} {t : Value} (tells : test.Tells t)

include tells

theorem chosen_compiled (code : t.isCode) (result : v.isCode) : (chosen test onTrue onFalse).Tells v := by
  unfold chosen
  split
  · exact result
  · split
    · next known =>
      obtain ⟨_,staged | solid⟩ := known
      · rw [staged]
        exact result
      · cases code.symm.trans (tells.solid solid)
    · trivial

theorem chosen_taken (plain : t.isCode = false) (result : onTrue.Tells v ∨ onFalse.Tells v) :
    (chosen test onTrue onFalse).Tells v := by
  unfold chosen
  split
  · next staged =>
    rw [staged] at tells
    cases plain.symm.trans tells
  · split
    · next known =>
      rw [← known.1,or_self] at result
      exact result
    · trivial

end Choice

section Values

variable {outs : Nat → Forecast} {values : List Value}
  (tells : ∀ (j : Nat) u, values[j]? = some u → (outs j).Tells u)

include tells

theorem any_code (staged : ∃ j < values.length, outs j = .fragment) : values.any isCode := by
  obtain ⟨j,below,fragment⟩ := staged
  have valued : values[j]? = some values[j] := getElem?_eq_getElem below
  have code := tells j _ valued
  rw [fragment] at code
  exact any_eq_true.mpr ⟨_,mem_of_getElem? valued,code⟩

theorem any_code_eq_false (solid : ∀ j < values.length, (outs j).isSolid) : values.any isCode = false := by
  refine any_eq_false.mpr fun u member code => ?_
  obtain ⟨j,valued⟩ := mem_iff_getElem?.mp member
  have below := lt_of_getElem? valued
  cases code.symm.trans ((tells j u valued).solid (solid j below))

end Values

end Forecast

namespace LetForm

def bound (form : LetForm) : Set String := {x | x ∈ form.names}

/-- The names that surely stand for variables of the generated program after the first bindings of a
form: those of bindings with a value that can be built, once one of the values is a fragment, and
those from around the form that are not hidden. -/
def referred (form : LetForm) (outs : Nat → Forecast) (refs : Set String) (count : Nat) : Set String :=
  {x | (∃ j < count, outs j = .fragment) ∧
      (∃ j < count, form.names[j]? = some x ∧ (outs j).isVariable) ∨
    x ∈ refs ∧ x ∉ form.names.take count}

/-- What is known of the value of a form. It is a fragment if the form is surely compiled, and the
value of the body if it surely is not. -/
def forecast (form : LetForm) (outs : Nat → Forecast) (o : Forecast) : Forecast :=
  if ∃ j < form.bindings.length, outs j = .fragment then .fragment
  else if o = .fragment ∨ ∀ j < form.bindings.length, (outs j).isSolid then o
  else .anything

section Forecast

variable {form : LetForm} {outs : Nat → Forecast} {o : Forecast} {values : List Value} {v : Value}
  (full : values.length = form.bindings.length)
  (tells : ∀ (j : Nat) u, values[j]? = some u → (outs j).Tells u)

include full tells

theorem forecast_compiled (code : values.any isCode) (result : v.isCode) : (form.forecast outs o).Tells v := by
  unfold forecast
  split
  · exact result
  · split
    · next known =>
      rcases known with rfl | solid
      · exact result
      · rw [← full] at solid
        cases code.symm.trans (Forecast.any_code_eq_false tells solid)
    · trivial

theorem forecast_interpreted (plain : values.any isCode = false) (result : o.Tells v) :
    (form.forecast outs o).Tells v := by
  unfold forecast
  split
  · next staged =>
    rw [← full] at staged
    cases plain.symm.trans (Forecast.any_code tells staged)
  · split
    · exact result
    · trivial

end Forecast

theorem ofParts_named {P : String → Prop} {kind : LetKind} {parts : List Value} {form : LetForm}
    (spelled : ∀ part ∈ parts, part.Spelled P) (read : ofParts kind parts = .ok form) :
    form.Named P := by
  obtain ⟨bindings,body⟩ := ofParts_spelled read spelled
  refine ⟨fun b listed => (bindings b listed).1,
    fun b listed _ _ found => (bindings b listed).2.exposed found,fun entry member => ?_⟩
  obtain ⟨statement,listed,inside⟩ := mem_flatMap.mp member
  have spelled : statement.Spelled P := by
    rcases mem_append.mp listed with init | last
    · obtain ⟨b,there,rfl⟩ := mem_map.mp init
      exact (bindings b there).2
    · cases mem_singleton.mp last
      exact body
  obtain ⟨target,value⟩ := spelled.assignments entry inside
  exact ⟨target,fun _ _ found => value.exposed found⟩

end LetForm

/-- An expression with fragments that stay in scope, and what is known of its value. Lifting makes
fragments if `lifts`; the names `refs` stand for variables of the generated program, and the names
`bound` are not defined anew. In the bodies of procedures lifting is sure to make fragments if
nothing is ever run, which `steady` says. -/
inductive Scoped (steady : Prop) :
    (lifts : Prop) → (refs bound : Set String) → Value → Forecast → Prop
  | int {lifts refs bound} (n : Int64) : Scoped steady lifts refs bound (.int n) .data
  | nil {lifts refs bound} : Scoped steady lifts refs bound .nil .data
  | name {lifts refs bound} (x : String) : Scoped steady lifts refs bound (.sym x) .anything
  | reference {lifts refs bound x} (known : x ∈ refs) : Scoped steady lifts refs bound (.sym x) .fragment
  | quote {lifts refs bound e d} (items : IsForm "quote" [d] e)
      (datum : d.isDatum) : Scoped steady lifts refs bound e .datum
  | list {lifts refs bound e d} (items : IsForm "quote" [d] e)
      (data : d.isData) : Scoped steady lifts refs bound e .data
  | lambda {lifts refs bound e params body o}
      (items : IsForm "lambda" [params,body] e) (spelled : e.Spelled Code.Quiet)
      (part : Scoped steady steady (refs \ {x | x ∈ paramNames params}) bound body o) :
      Scoped steady lifts refs bound e .procedure
  | block {lifts refs bound e parts form} {outs : Nat → Forecast} {o} (items : IsForm "let" parts e)
      (read : ofParts .plain parts = .ok form) (spelled : e.Spelled Code.Quiet)
      (apart : ∀ x, ¬ form.HidesLate x)
      (inits : ∀ (i : Nat) b, form.bindings[i]? = some b →
        Scoped steady lifts (form.referred outs refs i) (bound ∪ form.bound) b.init (outs i))
      (body : Scoped steady lifts (form.referred outs refs form.bindings.length) (bound ∪ form.bound) form.body o) :
      Scoped steady lifts refs bound e (form.forecast outs o)
  /-- A recursive form that is not compiled. -/
  | functions {lifts refs bound e parts form} {outs : Nat → Forecast} {o} (items : IsForm "letrec" parts e)
      (read : ofParts .recursive parts = .ok form)
      (inits : ∀ (i : Nat) b, form.bindings[i]? = some b →
        Scoped steady lifts (refs \ form.bound) (bound ∪ form.bound) b.init (outs i))
      (solid : ∀ i < form.bindings.length, (outs i).isSolid)
      (body : Scoped steady lifts (refs \ form.bound) (bound ∪ form.bound) form.body o) :
      Scoped steady lifts refs bound e (form.forecast outs o)
  /-- A recursive form with values that can all be built in generated code. The initialisers are
  evaluated again when the form is compiled. -/
  | knot {lifts refs bound e parts form} {outs again : Nat → Forecast} {o}
      (items : IsForm "letrec" parts e)
      (read : ofParts .recursive parts = .ok form) (spelled : e.Spelled Code.Quiet)
      (inits : ∀ (i : Nat) b, form.bindings[i]? = some b →
        Scoped steady lifts (refs \ form.bound) (bound ∪ form.bound) b.init (outs i))
      (second : ∀ (i : Nat) b, form.bindings[i]? = some b →
        Scoped steady lifts (refs ∪ form.bound) (bound ∪ form.bound) b.init (again i))
      (built : ∀ i < form.bindings.length, (again i).isVariable)
      (body : Scoped steady lifts (form.referred outs refs form.bindings.length) (bound ∪ form.bound) form.body o) :
      Scoped steady lifts refs bound e (form.forecast outs o)
  | choice {lifts refs bound e test onTrue onFalse o p q} (items : IsForm "if" [test,onTrue,onFalse] e)
      (tests : Scoped steady lifts refs bound test o)
      (first : Scoped steady lifts refs bound onTrue p)
      (second : Scoped steady lifts refs bound onFalse q) :
      Scoped steady lifts refs bound e (.chosen o p q)
  | option {lifts refs bound e test onTrue o p}
      (items : IsForm "if" [test,onTrue] e) (tests : Scoped steady lifts refs bound test o)
      (first : Scoped steady lifts refs bound onTrue p) :
      Scoped steady lifts refs bound e (.chosen o p .data)
  /-- An assignment that is left to the generated program. -/
  | assign {lifts refs bound e value x o}
      (items : IsForm "set!" [.sym x,value] e) (known : x ∈ refs)
      (part : Scoped steady lifts refs bound value o) : Scoped steady lifts refs bound e .fragment
  | store {lifts refs bound e value x o}
      (items : IsForm "set!" [.sym x,value] e) (part : Scoped steady lifts refs bound value o)
      (constant : o.isConstant) : Scoped steady lifts refs bound e .anything
  | lift {lifts refs bound e operand o} (stages : lifts)
      (items : IsForm "lift" [operand] e) (part : Scoped steady lifts refs bound operand o) :
      Scoped steady lifts refs bound e .fragment
  /-- Lifting that may leave the value as it is. -/
  | attempt {lifts refs bound e operand o}
      (items : IsForm "lift" [operand] e) (part : Scoped steady lifts refs bound operand o) :
      Scoped steady lifts refs bound e .anything
  | freeze {lifts refs bound e operand o}
      (items : IsForm "freeze" [operand] e) (part : Scoped steady lifts refs bound operand o) :
      Scoped steady lifts refs bound e o
  | run {lifts refs bound e operand o}
      (varies : ¬ steady) (items : IsForm "run" [operand] e)
      (part : Scoped steady False refs bound operand o) : Scoped steady lifts refs bound e o
  | above {lifts refs bound e operand o}
      (items : IsForm "EM" [operand] e) (part : Scoped steady True ∅ ∅ operand o) :
      Scoped steady lifts refs bound e o
  | define {lifts refs bound e value x o}
      (items : IsForm "set-meta!" [.sym x,value] e) (other : Rule.ofName? x = none)
      (new : x ∉ bound) (part : Scoped steady lifts refs bound value o) :
      Scoped steady lifts refs bound e .datum
  | scan {lifts refs bound e operand o}
      (items : IsForm "scan" [operand] e) (part : Scoped steady lifts refs bound operand o) :
      Scoped steady lifts refs bound e .fragment
  | scanRecord {lifts refs bound e operand record o} (items : IsForm "scan" [.sym record,operand] e)
      (part : Scoped steady lifts refs bound operand o) : Scoped steady lifts refs bound e .fragment
  | deftype {lifts refs bound e parts}
      (items : IsForm "deftype" parts e) : Scoped steady lifts refs bound e .datum
  | level {lifts refs bound e parts}
      (items : IsForm "menv" parts e) : Scoped steady lifts refs bound e .procedure
  | call {lifts refs bound e operator operands o} {outs : Nat → Forecast} (items : e.formItems? = some (operator :: operands))
      (other : ∀ name, operator = .sym name → isKeyword name = false)
      (first : Scoped steady lifts refs bound operator o)
      (rest : ∀ (i : Nat) operand, operands[i]? = some operand → Scoped steady lifts refs bound operand (outs i)) :
      Scoped steady lifts refs bound e .anything

namespace Scoped

variable {steady lifts : Prop} {refs bound : Set String} {e : Value} {o : Forecast}

theorem application {operator : Value} {operands : List Value} (items : e.formItems? = some (operator :: operands))
    (other : ∀ name, operator = .sym name → isKeyword name = false)
    (first : Scoped steady lifts refs bound operator o)
    (rest : ∀ operand ∈ operands, ∃ q, Scoped steady lifts refs bound operand q) :
    Scoped steady lifts refs bound e .anything := by
  have each (i : Nat) : ∃ q, ∀ operand, operands[i]? = some operand → Scoped steady lifts refs bound operand q := by
    cases found : operands[i]? with
    | none => exact ⟨.anything,nofun⟩
    | some operand =>
      obtain ⟨q,part⟩ := rest operand (mem_of_getElem? found)
      exact ⟨q,fun _ same => Option.some.inj same ▸ part⟩
  choose outs parts using each
  exact .call items other first parts

theorem compiled {x : String} {init body : Value} {parts : List Value}
    (items : IsForm "let" parts e)
    (read : ofParts .plain parts = .ok ⟨.plain,[⟨x,init⟩],body⟩)
    (spelled : e.Spelled Code.Quiet)
    (first : Scoped steady lifts refs (bound ∪ {x}) init .fragment)
    (rest : Scoped steady lifts (insert x refs) (bound ∪ {x}) body o) :
    Scoped steady lifts refs bound e .fragment := by
  generalize made : (⟨.plain,[⟨x,init⟩],body⟩ : LetForm) = form at read
  have names : form.names = [x] := by rw [← made]; rfl
  have names' : form.bound = {x} := by
    ext y
    simp [LetForm.bound,names]
  have outer : form.referred (fun _ => .fragment) refs 0 = refs := by
    ext y
    simp [referred]
  have count : form.bindings.length = 1 := by rw [← made]; rfl
  have inner : form.referred (fun _ => .fragment) refs form.bindings.length = insert x refs := by
    ext y
    rw [count]
    by_cases same : y = x
    · simp [referred,names,Forecast.isVariable,same]
    · simp [referred,names,Forecast.isVariable,same,Ne.symm same]
  have inits (i : Nat) (b : Binding) (found : form.bindings[i]? = some b) :
      Scoped steady lifts (form.referred (fun _ => .fragment) refs i) (bound ∪ form.bound) b.init .fragment := by
    cases i with
    | zero =>
      rw [← made] at found
      cases found
      rw [outer,names']
      exact first
    | succ i =>
      rw [← made] at found
      cases found
  have staged : form.forecast (fun _ => .fragment) o = .fragment := by
    simp [forecast,count]
  rw [← staged]
  refine .block items read spelled ?_ inits ?_
  · rintro y ⟨i,j,_,_,less,found,_⟩
    have inside := lt_of_getElem? found
    omega
  · rw [inner,names',← made]
    exact rest

end Scoped

end StagedLisp
