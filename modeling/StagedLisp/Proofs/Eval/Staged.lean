import StagedLisp.Proofs.Eval.Plain
import StagedLisp.Proofs.Form.Stageable

/-! Evaluation of stageable expressions, form by form. It leaves the levels and slots that are there
alone, and yields data or fragments. -/
namespace StagedLisp

open Eval Option

structure Store.Keeps (count : Nat) (s s' : Store) : Prop where
  more : s.levels.size ≤ s'.levels.size
  levels : ∀ i < count, s'.levelAt i = s.levelAt i
  slots : ∀ (i : Nat) v, s.slots[i]? = some v → s'.slots[i]? = some v

namespace Store.Keeps

variable {count count' level : Nat} {s s' s'' : Store} {x : String} {v : Value}

theorem refl (count : Nat) (s : Store) : s.Keeps count s :=
  ⟨le_rfl,fun _ _ => rfl,fun _ _ held => held⟩

theorem trans (first : s.Keeps count s') (second : s'.Keeps count s'') : s.Keeps count s'' where
  more := first.more.trans second.more
  levels i below := (second.levels i below).trans (first.levels i below)
  slots i v held := second.slots i v (first.slots i v held)

theorem mono (keeps : s.Keeps count s') (fewer : count' ≤ count) : s.Keeps count' s' :=
  ⟨keeps.more,fun i below => keeps.levels i (by omega),keeps.slots⟩

theorem chain (first : s.Keeps s.levels.size s') (second : s'.Keeps s'.levels.size s'') :
    s.Keeps s.levels.size s'' :=
  first.trans (second.mono first.more)

theorem valueAt (keeps : s.Keeps count s') (below : level < count)
    (found : s.valueAt level x = some v) : s'.valueAt level x = some v := by
  obtain ⟨slot,named,held⟩ := bind_eq_some_iff.mp found
  have same : s'.levels.getD level { env := [] } = s.levels.getD level { env := [] } := keeps.levels level below
  rw [Store.valueAt,same]
  exact bind_eq_some_iff.mpr ⟨slot,named,keeps.slots slot v held⟩

end Store.Keeps

variable {v : Value} {level : Nat} {s s' : Store}

theorem Env.extend_value {env : Env} {slots : Slots} {name x : String} {value : Value}
    (found : (List.lookup x [(name,value)]).or (env.value? slots x) = some v) :
    (env.extend slots name value).1.value? (env.extend slots name value).2 x = some v := by
  rw [List.lookup_cons] at found
  rw [extend,value?_extend]
  by_cases same : x = name
  · subst same
    rw [beq_self_eq_true] at found
    exact (if_pos rfl).trans found
  · rw [beq_false_of_ne same] at found
    exact (if_neg same).trans (value?_push found value)

def Value.reference (x : String) : Value := .code (.var (Code.identifier x))

structure Store.Defined (level : Nat) (entries : List (String × Value)) (s s' : Store) : Prop where
  keeps : s.Keeps level s'
  count : s'.levels.size = s.levels.size
  rest : ∃ env, s'.levelAt level = { s.levelAt level with env }
  values : ∀ x v, (entries.reverse.lookup x).or (s.valueAt level x) = some v → s'.valueAt level x = some v

namespace Store.Defined

variable {level : Nat} {entries entries' : List (String × Value)} {s s' s'' : Store}

theorem refl (level : Nat) (s : Store) : s.Defined level [] s :=
  ⟨.refl _ s,rfl,⟨_,rfl⟩,fun _ _ found => found⟩

theorem trans (first : s.Defined level entries s') (second : s'.Defined level entries' s'') :
    s.Defined level (entries ++ entries') s'' where
  keeps := first.keeps.trans second.keeps
  count := second.count.trans first.count
  rest := by
    obtain ⟨env,now⟩ := first.rest
    obtain ⟨env',later⟩ := second.rest
    exact ⟨env',by rw [later,now]⟩
  values x v found := by
    rw [List.reverse_append,List.lookup_append,Option.or_assoc] at found
    apply second.values
    cases here : entries'.reverse.lookup x with
    | some w => rwa [here] at found
    | none =>
      rw [here,none_or] at found
      exact first.values x v found

variable (defined : s.Defined level entries s')

include defined

theorem handlers : (s'.levelAt level).handlers = (s.levelAt level).handlers := by
  obtain ⟨_,same⟩ := defined.rest
  rw [same]

theorem staging : (s'.levelAt level).staging = (s.levelAt level).staging := by
  obtain ⟨_,same⟩ := defined.rest
  rw [same]

theorem releases : (s'.levelAt level).releases = (s.levelAt level).releases := by
  obtain ⟨_,same⟩ := defined.rest
  rw [same]

end Store.Defined

namespace Ran

variable {s s' : Store} {level : Nat} {done : Unit}

theorem scope {env : Env} {inner : Nat} (ran : Ran (scope level env) s inner s') : inner = s.levels.size ∧
      s' = { s with levels := s.levels.push ((s.levelAt level).scope env) } := by
  cases ran
  exact ⟨rfl,rfl⟩

theorem updateLevel {f : Level → Level} (inside : level < s.levels.size)
    (ran : Ran (updateLevel level f) s done s') :
    (∀ i, s'.levelAt i = if level = i then f (s.levelAt i) else s.levelAt i) ∧
      s'.levels.size = s.levels.size ∧ s'.slots = s.slots := by
  obtain rfl := ran.modified
  exact ⟨fun i => Store.levelAt_modify s level i f inside,Array.size_modify,rfl⟩

theorem defined {x : String} {v : Value} (inside : level < s.levels.size)
    (ran : Ran (Eval.define level x v) s done s') : s.Defined level [(x,v)] s' := by
  obtain ⟨slots,_,count,levels⟩ := ran.define inside
  refine ⟨⟨count.ge,?_,fun _ _ held => slots ▸ Slots.getElem?_push_of_some held v⟩,count,⟨_,(levels level).trans (if_pos rfl)⟩,?_⟩
  · intro i below
    exact (levels i).trans (if_neg (by omega))
  · intro y w found
    show (s'.levelAt level).env.value? s'.slots y = some w
    rw [levels,if_pos rfl,slots]
    exact Env.extend_value found

theorem reference {x : String} {v : Value} (ran : Ran (reference x) s v s') :
    v = .reference x ∧ ∀ level, s.Defined level [] s' := by
  cases ran
  exact ⟨rfl,fun level => ⟨⟨le_rfl,fun _ _ => rfl,fun _ _ held => held⟩,rfl,⟨_,rfl⟩,fun _ _ found => found⟩⟩

end Ran

/-- The expression has the value, with evaluations nested as deep as it takes. -/
def Evaluated (level : Nat) (e : Value) (s : Store) (v : Value) (s' : Store) : Prop :=
  ∃ fuel, Ran (eval fuel level e) s v s'

inductive EvaluatedEach (level : Nat) : List Value → Store → List Value → Store → Prop where
  | nil {s : Store} : EvaluatedEach level [] s [] s
  | cons {e v : Value} {es vs : List Value} {s mid s' : Store} (first : Evaluated level e s v mid)
      (rest : EvaluatedEach level es mid vs s') : EvaluatedEach level (e :: es) s (v :: vs) s'

theorem Ran.each {fuel : Nat} {es vs : List Value} (ran : Ran ((eval fuel).each level es) s vs s') :
    EvaluatedEach level es s vs s' := by
  induction es generalizing s vs with
  | nil =>
    obtain ⟨rfl,rfl⟩ := ran.pure
    exact .nil
  | cons e es ih =>
    obtain ⟨v,mid,first,ran⟩ := ran.bind
    obtain ⟨vs,last,rest,returning⟩ := ran.bind
    obtain ⟨rfl,rfl⟩ := returning.pure
    exact .cons ⟨fuel,first⟩ (ih rest)

def Store.Native (s : Store) (level : Nat) : Prop :=
  ∀ rule, (s.levelAt level).handlers.get rule = .native

theorem Store.Native.dispatch (native : s.Native level) {rule : Rule} {x : Eval Value}
    {reflected : Evaluator} {expr : Value}
    (ran : Ran (dispatch rule x reflected level expr) s v s') : Ran x s v s' := by
  have acting := ran.bind_level
  rwa [native rule] at acting

inductive Level.Dropped (l : Level) (c : Code) : Code → Prop where
  | unchanged : Dropped l c c
  | releasing {drops : List Code.Drop} (listed : ∀ d ∈ drops, ∃ r ∈ l.releases, r.drop = d) :
      Dropped l c (.dropping drops c)

theorem Ran.withDrops {branch : Nat} {e : Value} {c d : Code} (ran : Ran (withDrops level e branch c) s d s') :
    (s.levelAt level).Dropped c d ∧ s' = s := by
  unfold Eval.withDrops at ran
  split at ran
  · obtain ⟨rfl,rfl⟩ := ran.pure
    exact ⟨.unchanged,rfl⟩
  · have dropping := ran.bind_level
    split at dropping
    · obtain ⟨rfl,rfl⟩ := dropping.pure
      exact ⟨.unchanged,rfl⟩
    · obtain ⟨rfl,rfl⟩ := dropping.pure
      refine ⟨.releasing ?_,rfl⟩
      intro drop member
      obtain ⟨r,listed,same⟩ := List.mem_map.mp member
      exact ⟨r,(List.mem_filter.mp listed).1,same⟩

/-- A level has been told what is to be released in the body that it evaluates next. -/
structure Store.Prepared (level : Nat) (releases : List BranchRelease) (s s' : Store) : Prop where
  keeps : s.Keeps level s'
  count : s'.levels.size = s.levels.size
  rest : ∃ known, s'.levelAt level = { s.levelAt level with known, releases }
  slots : s'.slots = s.slots

namespace Evaluated

variable {level : Nat} {e v : Value} {s s' : Store} {keyword : String} {parts : List Value}

theorem step (ran : Evaluated level e s v s') :
    ∃ fuel reflected, Ran (evalStep (eval fuel) reflected level e) s v s' := by
  obtain ⟨fuel,ran⟩ := ran
  cases fuel with
  | zero => exact ran.fault.elim
  | succ fuel => exact ⟨fuel,_,eval_succ fuel ▸ ran⟩

theorem form (items : IsForm keyword parts e) (ran : Evaluated level e s v s') :
    ∃ fuel reflected, Ran (evalForm (eval fuel) reflected level e) s v s' := by
  obtain ⟨fuel,reflected,ran⟩ := ran.step
  obtain ⟨_,_,rfl,_⟩ := formItems_cons items
  exact ⟨fuel,reflected,ran.adapt⟩

theorem fixed (items : IsForm keyword parts e) (rule : Evaluator → List Value → Eval Value)
    (known : ∀ eval, fixedRule? eval level keyword = some (rule eval))
    (ran : Evaluated level e s v s') : ∃ fuel, Ran (rule (eval fuel) parts) s v s' := by
  obtain ⟨fuel,reflected,ran⟩ := ran.form items
  rw [evalForm_fixed _ _ _ items.head (known _)] at ran
  obtain ⟨_,read,applying⟩ := ran.bind_result
  cases items.parts.symm.trans read
  exact ⟨fuel,applying⟩

theorem quote {datum : Value} (items : IsForm "quote" [datum] e) (ran : Evaluated level e s v s') :
    v = datum ∧ s' = s := by
  obtain ⟨_,quoting⟩ := ran.fixed items
    (fun _ parts => ofResult (onePart "quote" parts)) fun _ => rfl
  obtain ⟨same,rfl⟩ := quoting.ofResult
  cases same
  exact ⟨rfl,rfl⟩

theorem lift {operand : Value} (items : IsForm "lift" [operand] e)
    (ran : Evaluated level e s v s') : ∃ u, Evaluated level operand s u s' ∧
      (v = u ∨ (s'.levelAt level).staging ∧ ∃ c, u.lift = .ok c ∧ v = .code c) := by
  obtain ⟨fuel,lifting⟩ := ran.fixed items (fun eval => liftForm eval level) fun _ => rfl
  obtain ⟨_,same,evaluating⟩ := lifting.bind_result
  cases same
  obtain ⟨u,mid,evaluated,deciding⟩ := evaluating.bind
  have deciding := deciding.bind_level
  refine ⟨u,?_⟩
  split at deciding
  · obtain ⟨rfl,rfl⟩ := deciding.pure
    exact ⟨⟨fuel,evaluated⟩,.inl rfl⟩
  · next staging =>
    obtain ⟨c,lifted,returning⟩ := deciding.bind_result
    obtain ⟨rfl,rfl⟩ := returning.pure
    rw [Bool.or_eq_true,not_or] at staging
    exact ⟨⟨fuel,evaluated⟩,.inr ⟨by simpa using staging.1,c,lifted,rfl⟩⟩

def Branch (level : Nat) (e : Value) (s : Store) (c : Code) (s' : Store) : Prop :=
  ∃ v, Evaluated level e s v s' ∧ v.lift = .ok c

section Native

variable (native : s.Native level)

include native

theorem literal (atom : e = .nil ∨ ∃ n, e = .int n) (ran : Evaluated level e s v s') : v = e ∧ s' = s := by
  obtain ⟨_,_,ran⟩ := ran.step
  rcases atom with rfl | ⟨n,rfl⟩ <;> exact (native.dispatch ran).pure

theorem symbol {x : String} (ran : Evaluated level (.sym x) s v s') : s.valueAt level x = some v ∧ s' = s := by
  obtain ⟨_,_,ran⟩ := ran.step
  exact (native.dispatch ran).variable

theorem choice {test onTrue onFalse : Value} (items : IsForm "if" [test,onTrue,onFalse] e)
    (ran : Evaluated level e s v s') : ∃ t mid, Evaluated level test s t mid ∧ (t.isCode = false ∧
          Evaluated level (if t.truthy then onTrue else onFalse) mid v s' ∨
        ∃ c c₁ c₂ d₁ d₂ next, t = .code c ∧ Branch level onTrue mid c₁ next ∧
          Branch level onFalse next c₂ s' ∧ (s'.levelAt level).Dropped c₁ d₁ ∧
          (s'.levelAt level).Dropped c₂ d₂ ∧ v = .code (.conditional c d₁ d₂)) := by
  obtain ⟨fuel,reflected,ran⟩ := ran.form items
  rw [evalForm_choice _ _ _ items.head] at ran
  obtain ⟨_,read,choosing⟩ := (native.dispatch ran).bind_result
  cases items.parts.symm.trans read
  have choosing : Ran (conditional (eval fuel) level e test onTrue (some onFalse)) s v s' := choosing
  rw [conditional_step] at choosing
  obtain ⟨t,mid,tested,branching⟩ := choosing.bind
  refine ⟨t,mid,⟨fuel,tested⟩,?_⟩
  cases t with
  | code c =>
    obtain ⟨v₁,next,first,lifting⟩ := Ran.bind branching
    obtain ⟨c₁,lifted₁,other⟩ := lifting.bind_result
    obtain ⟨v₂,last,second,lifting⟩ := other.bind
    obtain ⟨c₂,lifted₂,dropping₁⟩ := lifting.bind_result
    obtain ⟨d₁,after,entering₁,dropping₂⟩ := dropping₁.bind
    obtain ⟨dropped₁,rfl⟩ := entering₁.withDrops
    obtain ⟨d₂,after',entering₂,returning⟩ := dropping₂.bind
    obtain ⟨dropped₂,rfl⟩ := entering₂.withDrops
    obtain ⟨rfl,rfl⟩ := returning.pure
    exact .inr ⟨c,c₁,c₂,d₁,d₂,next,rfl,⟨v₁,⟨fuel,first⟩,lifted₁⟩,⟨v₂,⟨fuel,second⟩,lifted₂⟩,dropped₁,dropped₂,rfl⟩
  | _ =>
    refine .inl ⟨rfl,fuel,?_⟩
    simp only [Value.code?,elim_none,branch,elim_some] at branching
    split at branching
    · next yes => rwa [if_pos yes]
    · next no => rwa [if_neg no]

theorem call {op : Primitive} {args : List Value} (items : IsForm op.name args e)
    (ran : Evaluated level e s v s') : ∃ procedure values mid fuel,
      s.valueAt level op.name = some procedure ∧ EvaluatedEach level args s values mid ∧
      Ran (applyTo (eval fuel) level procedure values) mid v s' := by
  obtain ⟨fuel,reflected,ran⟩ := ran.form items
  rw [evalForm_call _ _ _ items.head] at ran
  have calling := native.dispatch ran
  obtain ⟨cell,tail,rfl,rest⟩ := formItems_cons items
  unfold callRule at calling
  simp only [Value.items?,rest,Functor.map,map_some] at calling
  obtain ⟨procedure,mid,operator,evaluating⟩ := calling.bind
  obtain ⟨found,rfl⟩ := symbol native ⟨fuel,operator⟩
  obtain ⟨values,last,operands,applying⟩ := evaluating.bind
  exact ⟨procedure,values,last,fuel,found,operands.each,applying⟩

theorem block {form : LetForm} (read : LetForm.ofValue e = .ok form) (plain : form.kind = .plain)
    (ran : Evaluated level e s v s') : ∃ fuel values staged mid,
      Ran (bindEach (eval fuel) s.levels.size [] false form.bindings)
        { s with levels := s.levels.push ((s.levelAt level).scope (s.levelAt level).env) }
        (values,staged) mid ∧
      (staged = false ∧ Evaluated s.levels.size form.body mid v s' ∨
        staged ∧ Ran (compileBlock (eval fuel) form values s.levels.size) mid v s') := by
  obtain ⟨parts,items,_⟩ := LetForm.ofValue_form read
  rw [plain] at items
  obtain ⟨fuel,reflected,ran⟩ := ran.form items
  rw [evalForm_let _ _ _ items.head] at ran
  obtain ⟨_,found,opening⟩ := (native.dispatch ran).bind_result
  cases read.symm.trans found
  obtain ⟨inner,start,opened,binding⟩ := opening.bind_level.bind
  obtain ⟨rfl,rfl⟩ := opened.scope
  obtain ⟨⟨values,staged⟩,mid,bound,going⟩ := binding.bind
  refine ⟨fuel,values,staged,mid,bound,?_⟩
  dsimp only at going
  split at going
  · next on => exact .inr ⟨on,going⟩
  · next off => exact .inl ⟨by simpa using off,fuel,going⟩

end Native

end Evaluated

theorem Ran.compileBlock {fuel : Nat} {form : LetForm} {values : List Value} (inside : level < s.levels.size)
    (ran : Ran (compileBlock (eval fuel) form values level) s v s') :
    ∃ known options start w c, let plans := Plans.ofForm form values (Analysis.ofForm form known options) options
      s.Prepared level plans.branchReleases start ∧ Evaluated level form.body start w s' ∧
        w.lift = .ok c ∧ v = .code (plans.blockAround form.kind c) := by
  obtain ⟨_,mid,recorded,releasing⟩ := ran.bind_get.bind_level.bind
  obtain ⟨_,start,set,evaluating⟩ := releasing.bind
  obtain ⟨w,last,evaluated,emitting⟩ := evaluating.bind
  obtain ⟨c,emitted,returning⟩ := emitting.bind_result
  obtain ⟨rfl,rfl⟩ := returning.pure
  obtain ⟨d,lifted,rfl⟩ := Primitive.map_ok emitted
  refine ⟨(s.levelAt level).known,s.options,start,w,d,?_,⟨fuel,evaluated⟩,lifted,rfl⟩
  obtain ⟨first,size,slots⟩ := Ran.updateLevel inside recorded
  obtain ⟨second,size',slots'⟩ := Ran.updateLevel (size ▸ inside) set
  refine ⟨⟨by omega,?_,?_⟩,size'.trans size,?_,slots'.trans slots⟩
  · intro i below
    rw [second,if_neg (by omega),first,if_neg (by omega)]
  · intro i u held
    rwa [slots',slots]
  · rw [second,if_pos rfl,first,if_pos rfl]
    exact ⟨_,rfl⟩

end StagedLisp
