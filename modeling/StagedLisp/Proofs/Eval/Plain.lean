import StagedLisp.Proofs.Environment
import StagedLisp.Proofs.Eval.Forms
import StagedLisp.Proofs.Form.Plain

/-! Evaluation of plain expressions: integers, quoted data, names, primitives and conditionals with
two branches. It changes nothing but the number of the next cell, and is given by rules. -/
namespace StagedLisp

open List Eval Binding Value Store Prod Except Env

def Ran {α : Type} (x : Eval α) (s : Store) (a : α) (s' : Store) : Prop :=
  x.run.run s = (.ok a,s')

namespace Ran

variable {α β : Type} {x : Eval α} {f : α → Eval β} {s s' : Store} {a : α} {b : β} {result : Result α}

theorem bind (ran : Ran (x >>= f) s b s') : ∃ a mid, Ran x s a mid ∧ Ran (f a) mid b s' := by
  have unfolded : (match x.run.run s with
      | (.ok a,mid) => (f a).run.run mid
      | (.error e,mid) => (.error e,mid)) = (ok b,s') := by
    rw [← ran]
    show _ = (x >>= f).run.run s
    simp only [ExceptT.run_bind,StateT.run_bind]
    rcases x.run.run s with ⟨_ | _,_⟩ <;> rfl
  split at unfolded
  · next a mid first => exact ⟨a,mid,first,unfolded⟩
  · cases unfolded

theorem pure {c : α} (ran : Ran (Pure.pure a : Eval α) s c s') : c = a ∧ s' = s := by
  cases ran
  exact ⟨rfl,rfl⟩

theorem ofResult (ran : Ran (ofResult result) s a s') : result = .ok a ∧ s' = s := by
  cases result with
  | ok => cases ran; exact ⟨rfl,rfl⟩
  | error => cases ran

theorem fault {cause : Fault} (ran : Ran (fault cause : Eval α) s a s') : False := by
  cases ran

theorem adapt {f : Error → Error} (ran : Ran (x.adapt f) s a s') : Ran x s a s' := by
  have mapped : (Except.mapError f (x.run.run s).1,(x.run.run s).2) = (Except.ok a,s') := ran
  unfold Ran
  revert mapped
  generalize x.run.run s = result
  intro mapped
  obtain ⟨_ | _,_⟩ := result
  · cases mapped
  · cases mapped
    rfl

theorem get {store : Store} (ran : Ran (MonadState.get : Eval Store) s store s') : store = s ∧ s' = s := by
  cases ran
  exact ⟨rfl,rfl⟩

theorem modified {f : Store → Store} {done : PUnit} (ran : Ran (modify f : Eval PUnit) s done s') : s' = f s := by
  cases ran
  rfl

theorem level {id : Nat} {l : Level} (ran : Ran (level id) s l s') :
    l = s.levels.getD id { env := [] } ∧ s' = s := by
  cases ran
  exact ⟨rfl,rfl⟩

theorem bind_result (ran : Ran (Eval.ofResult result >>= f) s b s') : ∃ a, result = .ok a ∧ Ran (f a) s b s' := by
  obtain ⟨a,_,read,rest⟩ := ran.bind
  obtain ⟨ok,rfl⟩ := read.ofResult
  exact ⟨a,ok,rest⟩

theorem bind_level {id : Nat} {f : Level → Eval β} (ran : Ran (Eval.level id >>= f) s b s') :
    Ran (f (s.levelAt id)) s b s' := by
  obtain ⟨_,_,found,rest⟩ := ran.bind
  obtain ⟨rfl,rfl⟩ := found.level
  exact rest

theorem bind_get {f : Store → Eval β} (ran : Ran (MonadState.get >>= f) s b s') : Ran (f s) s b s' := by
  obtain ⟨_,_,found,rest⟩ := ran.bind
  obtain ⟨rfl,rfl⟩ := found.get
  exact rest

theorem primitive {op : Primitive} {args : List Value} {v : Value} (ran : Ran (primitive op args) s v s') :
    op.apply args s.next = .ok (v,s'.next) ∧ s' = { s with next := s'.next } := by
  obtain ⟨⟨_,_⟩,applied,updating⟩ := ran.bind_get.bind_result
  obtain ⟨_,_,updated,returning⟩ := updating.bind
  obtain rfl := updated.modified
  obtain ⟨rfl,rfl⟩ := returning.pure
  exact ⟨applied,rfl⟩

end Ran

inductive Each (step : Value → Nat → Value → Nat → Prop) :
    List Value → Nat → List Value → Nat → Prop where
  | nil {next} : Each step [] next [] next
  | cons {e v es vs next mid next'} (first : step e next v mid)
      (rest : Each step es mid vs next') : Each step (e :: es) next (v :: vs) next'

/-- What one expression yields, where `part` is for its parts, `lookup` for its names, and new cells
are numbered from `next` up to `next'`. -/
inductive Rule.Yields (lookup : String → Option Value)
    (part : Value → Nat → Value → Nat → Prop) : Value → Nat → Value → Nat → Prop where
  | int {n next} : Yields lookup part (.int n) next (.int n) next
  | nil {next} : Yields lookup part .nil next .nil next
  | name {x v next} (found : lookup x = some v) : Yields lookup part (.sym x) next v next
  | quote {e datum next} (items : e.formItems? = some [.sym "quote",datum])
      (data : datum.isDatum) : Yields lookup part e next datum next
  | call {e v args values next mid next'} (op : Primitive) (items : e.formItems? = some (.sym op.name :: args))
      (parts : Each part args next values mid)
      (applied : op.apply values mid = .ok (v,next')) : Yields lookup part e next v next'
  | choice {e test onTrue onFalse t v next mid next'}
      (items : e.formItems? = some [.sym "if",test,onTrue,onFalse])
      (tested : part test next t mid)
      (chosen : part (if t.truthy then onTrue else onFalse) mid v next') :
      Yields lookup part e next v next'

/-- What an expression yields with evaluations nested at most so deep. -/
def Yields (lookup : String → Option Value) : Nat → Value → Nat → Value → Nat → Prop
  | 0 => fun _ _ _ _ => False
  | depth + 1 => Rule.Yields lookup (Yields lookup depth)

def Store.valueAt (s : Store) (level : Nat) (x : String) : Option Value :=
  (s.levels.getD level { env := [] }).env.value? s.slots x

/-- At the level every rule is native, the names have the values that `lookup` gives, and the names
of primitives mean these or data. -/
structure Ready (s : Store) (level : Nat) (names : List String) (lookup : String → Option Value) :
    Prop where
  inside : level < s.levels.size
  native : ∀ rule, (s.levels.getD level { env := [] }).handlers.get rule = .native
  bound : ∀ x ∈ names, ∃ v, s.valueAt level x = some v ∧ lookup x = some v ∧ v.isDatum
  primitives : ∀ op : Primitive, ∃ v, s.valueAt level op.name = some v ∧ (v = .prim op ∨ v.isDatum)

variable {names : List String} {lookup : String → Option Value} {s s' : Store} {level : Nat}

theorem root_ready (next : Nat) : Ready { (Store.addRoot {}).2 with next } 0 [] fun _ => none where
  inside := Nat.zero_lt_one
  native rule := by cases rule <;> rfl
  bound _ member := by cases member
  primitives op := ⟨.prim op,by cases op <;> rfl,.inl rfl⟩

theorem Ready.advance (ready : Ready s level names lookup) (next : Nat) :
    Ready { s with next } level names lookup :=
  ⟨ready.inside,ready.native,ready.bound,ready.primitives⟩

variable {v : Value} {x : String} {bindings : List Binding} {before : List (String × Value)}
  {staged : Bool} {values : List Value} {part : Value → Nat → Value → Nat → Prop}
  {reflected : Evaluator} {done : Unit}

theorem Ready.dispatch (ready : Ready s level names lookup) {rule : Rule} {native : Eval Value}
    {expr : Value} (ran : Ran (dispatch rule native reflected level expr) s v s') :
    Ran native s v s' := by
  have acting := ran.bind_level
  rwa [levelAt,ready.native rule] at acting

theorem Ran.variable (ran : Ran (Eval.variableRule level (.sym x)) s v s') :
    s.valueAt level x = some v ∧ s' = s := by
  obtain ⟨value,_,read,returning⟩ := ran.bind_level.bind
  obtain ⟨rfl,rfl⟩ := read.bind_get.pure
  show (Store.levelAt _ level).env.value? _ x = some v ∧ _
  revert returning
  generalize value? _ _ x = result
  intro returning
  cases result with
  | none => exact returning.fault.elim
  | some _ =>
    obtain ⟨rfl,rfl⟩ := returning.pure
    exact ⟨rfl,rfl⟩

theorem evalForm_call (eval reflected : Evaluator) (level : Nat) {e : Value} {op : Primitive}
    (head : e.headSymbol? = some op.name) : evalForm eval reflected level e =
      dispatch .call (callRule eval level e) reflected level e := by
  unfold evalForm
  rw [head]
  cases op <;> rfl

theorem evalForm_quote (eval reflected : Evaluator) (level : Nat) {e : Value}
    (head : e.headSymbol? = some "quote") : evalForm eval reflected level e =
      (do ofResult (onePart "quote" (← ofResult (parts e)))) := by
  unfold evalForm
  rw [head]
  rfl

namespace Primitive

/-- What the primitives make of values: integers, new cells around them, or parts of them. -/
inductive Makes : Primitive → List Value → Nat → Value → Nat → Prop where
  | scalar {op args next} (n : Int64) (made : op.isScalar) : Makes op args next (.int n) next
  | cons {head tail next} : Makes cons [head,tail] next (.pair next head tail) (next + 1)
  | list {args next} : Makes list args next (ofItems args next).1 (ofItems args next).2
  | car {cell next head tail} : Makes car [.pair cell head tail] next head next
  | cdr {cell next head tail} : Makes cdr [.pair cell head tail] next tail next

variable {op : Primitive} {args : List Value} {next next' : Nat}

theorem reduce_makes (reduced : reduce op args next = .ok (v,next')) : op.Makes args next v next' := by
  have integer {α : Type} {result : Result α} {f : α → Int64} (scalar : op.isScalar)
      (ok : result.map (fun a => (int (f a),next)) = .ok (v,next')) :
      op.Makes args next v next' := by
    cases result with
    | error => cases ok
    | ok a => cases ok; exact .scalar _ scalar
  unfold reduce at reduced
  dsimp only at reduced
  split at reduced
  all_goals first
    | exact integer rfl reduced
    | (cases reduced; first | exact .scalar _ rfl | exact .cons)
    | skip
  · next a =>
    cases a with
    | pair cell head tail => cases reduced; exact .car
    | _ => cases reduced
  · next a =>
    cases a with
    | pair cell head tail => cases reduced; exact .cdr
    | _ => cases reduced
  · have listed := ok.inj reduced
    have made : Makes list args next _ _ := .list
    rwa [listed] at made
  · cases reduced

theorem apply_makes (data : ∀ a ∈ args, a.isDatum) (applied : op.apply args next = .ok (v,next')) :
    op.Makes args next v next' := by
  have plain : args.any isCode = false := by
    rw [any_eq_false]
    intro a member
    simp [isDatum_not_code (data a member)]
  unfold apply at applied
  split at applied
  · cases applied
  · simp only [plain] at applied
    exact reduce_makes applied

/-- What holds of integers and of the empty list, and of pairs exactly if it holds of their parts,
passes from the operands to the result. -/
theorem Makes.inherit {P : Value → Prop} (makes : op.Makes args next v next') (int : ∀ n, P (.int n)) (nil : P .nil)
    (pair : ∀ cell head tail, P (.pair cell head tail) ↔ P head ∧ P tail)
    (each : ∀ a ∈ args, P a) : P v := by
  cases makes with
  | scalar n => exact int n
  | cons => exact (pair _ _ _).mpr (by simpa using each)
  | list =>
    induction args with
    | nil => exact nil
    | cons item items ih =>
      obtain ⟨first,rest⟩ := forall_mem_cons.mp each
      exact (pair _ _ _).mpr ⟨first,ih rest⟩
  | car => exact ((pair _ _ _).mp (each _ mem_cons_self)).1
  | cdr => exact ((pair _ _ _).mp (each _ mem_cons_self)).2

theorem Makes.datum (makes : op.Makes args next v next') (data : ∀ a ∈ args, a.isDatum) : v.isDatum :=
  makes.inherit (P := fun v => v.isDatum) (fun _ => rfl) rfl (by simp [isDatum]) data

end Primitive

/-- An evaluator that follows the rules for parts and reads symbols, and changes only the number of
the next cell. -/
structure Follows (lookup : String → Option Value) (names : List String) (level : Nat)
    (eval : Evaluator) (part : Value → Nat → Value → Nat → Prop) : Prop where
  plain : ∀ {e v : Value} {s s' : Store}, Plain names e → Ready s level names lookup → Ran (eval level e) s v s' →
      part e s.next v s'.next ∧ v.isDatum ∧ s' = { s with next := s'.next }
  symbol : ∀ {x : String} {v : Value} {s s' : Store}, Ready s level names lookup →
    Ran (eval level (.sym x)) s v s' → s.valueAt level x = some v ∧ s' = s

theorem Follows.each {eval : Evaluator} (follows : Follows lookup names level eval part)
    {es vs : List Value} (plain : ∀ e ∈ es, Plain names e) (ready : Ready s level names lookup)
    (ran : Ran (eval.each level es) s vs s') :
    Each part es s.next vs s'.next ∧ (∀ v ∈ vs, v.isDatum) ∧ s' = { s with next := s'.next } := by
  induction es generalizing s vs with
  | nil =>
    obtain ⟨rfl,rfl⟩ := ran.pure
    exact ⟨.nil,by simp,rfl⟩
  | cons e es ih =>
    obtain ⟨v,mid,first,ran⟩ := ran.bind
    obtain ⟨vs,last,rest,returning⟩ := ran.bind
    obtain ⟨rfl,rfl⟩ := returning.pure
    obtain ⟨yields,datum,moved⟩ := follows.plain (plain e mem_cons_self) ready first
    obtain ⟨others,data,moved'⟩ := ih (fun e member => plain e (.tail _ member)) (moved ▸ ready.advance _) rest
    refine ⟨.cons yields others,?_,?_⟩
    · exact forall_mem_cons.mpr ⟨datum,data⟩
    · rw [moved',moved]

section Rules

variable {eval reflected : Evaluator} {part : Value → Nat → Value → Nat → Prop}
  (follows : Follows lookup names level eval part) (ready : Ready s level names lookup)
  {e v : Value}

include ready

theorem quote_yields {datum : Value} (items : e.formItems? = some [.sym "quote",datum])
    (ran : Ran (evalForm eval reflected level e) s v s') : v = datum ∧ s' = s := by
  obtain ⟨cell,tail,rfl,rest⟩ := formItems_cons items
  rw [evalForm_quote _ _ _ rfl] at ran
  obtain ⟨parts,listed,quoting⟩ := ran.bind_result
  simp only [Eval.parts,Value.tail?,Option.bind_some,rest,ok.injEq] at listed
  subst listed
  obtain ⟨same,rfl⟩ := quoting.ofResult
  cases same
  exact ⟨rfl,rfl⟩

include follows

theorem call_yields {op : Primitive} {args : List Value}
    (items : e.formItems? = some (.sym op.name :: args)) (plain : ∀ a ∈ args, Plain names a)
    (ran : Ran (evalForm eval reflected level e) s v s') :
    Rule.Yields lookup part e s.next v s'.next ∧ v.isDatum ∧ s' = { s with next := s'.next } := by
  obtain ⟨cell,tail,rfl,rest⟩ := formItems_cons items
  rw [evalForm_call _ _ _ rfl] at ran
  have calling := ready.dispatch ran
  unfold callRule at calling
  simp only [items?,rest,Functor.map,Option.map_some] at calling
  obtain ⟨procedure,_,operator,evaluating⟩ := calling.bind
  obtain ⟨found,rfl⟩ := follows.symbol ready operator
  obtain ⟨values,mid,operands,applying⟩ := evaluating.bind
  obtain ⟨each,data,moved⟩ := follows.each plain ready operands
  obtain ⟨w,known,meaning⟩ := ready.primitives op
  rw [found] at known
  cases known
  rcases meaning with rfl | datum
  · obtain ⟨applied,moved'⟩ := Ran.primitive applying
    refine ⟨.call op items each applied,(Primitive.apply_makes data applied).datum data,?_⟩
    rw [moved',moved]
  · -- A name that hides the primitive means data, which cannot be called.
    cases procedure with
    | prim | closure => cases datum
    | _ => exact applying.fault.elim

theorem choice_yields {test onTrue onFalse : Value}
    (items : e.formItems? = some [.sym "if",test,onTrue,onFalse]) (tests : Plain names test)
    (first : Plain names onTrue) (second : Plain names onFalse)
    (ran : Ran (evalForm eval reflected level e) s v s') :
    Rule.Yields lookup part e s.next v s'.next ∧ v.isDatum ∧ s' = { s with next := s'.next } := by
  obtain ⟨cell,tail,rfl,rest⟩ := formItems_cons items
  rw [evalForm_choice _ _ _ rfl] at ran
  obtain ⟨parts,listed,choosing⟩ := (ready.dispatch ran).bind_result
  simp only [Eval.parts,Value.tail?,Option.bind_some,rest,ok.injEq] at listed
  subst listed
  obtain ⟨t,mid,testing,continuing⟩ := choosing.bind
  obtain ⟨tested,datum,moved⟩ := follows.plain tests ready testing
  have chosen : Ran (eval level (if t.truthy then onTrue else onFalse)) mid v s' := by
    cases t with
    | code => cases datum
    | _ =>
      simp only at continuing
      split at continuing
      · next yes => rwa [if_pos yes]
      · next no => rwa [if_neg no]
  have plain : Plain names (if t.truthy then onTrue else onFalse) := by
    split
    · exact first
    · exact second
  obtain ⟨yields,datum',moved'⟩ := follows.plain plain (moved ▸ ready.advance _) chosen
  refine ⟨.choice items tested yields,datum',?_⟩
  rw [moved',moved]

end Rules

theorem evalStep_follows {eval : Evaluator} (follows : Follows lookup names level eval part) :
    Follows lookup names level (evalStep eval reflected) (Rule.Yields lookup part) where
  plain := by
    intro e v s s' plain ready ran
    have form {e : Value} {items : List Value} (listed : e.formItems? = some items)
        (ran : Ran (evalStep eval reflected level e) s v s') :
        Ran (evalForm eval reflected level e) s v s' := by
      cases e with
      | pair cell head tail => exact ran.adapt
      | _ => cases listed
    cases plain with
    | int n =>
      obtain ⟨rfl,rfl⟩ := (ready.dispatch ran).pure
      exact ⟨.int,rfl,rfl⟩
    | nil =>
      obtain ⟨rfl,rfl⟩ := (ready.dispatch ran).pure
      exact ⟨.nil,rfl,rfl⟩
    | name known =>
      obtain ⟨found,rfl⟩ := (ready.dispatch ran).variable
      obtain ⟨w,value,meaning,datum⟩ := ready.bound _ known
      rw [found] at value
      cases value
      exact ⟨.name meaning,datum,rfl⟩
    | quote items data =>
      obtain ⟨rfl,rfl⟩ := quote_yields ready items (form items ran)
      exact ⟨.quote items data,data,rfl⟩
    | call op items parts => exact call_yields follows ready items parts (form items ran)
    | choice items tests first second =>
      exact choice_yields follows ready items tests first second (form items ran)
  symbol := by
    intro x v s s' ready ran
    exact (ready.dispatch ran).variable

theorem eval_follows (fuel : Nat) : Follows lookup names level (eval fuel) (Yields lookup fuel) := by
  have deep : Follows lookup names level tooDeep (Yields lookup 0) :=
    ⟨fun _ _ ran => ran.fault.elim,fun _ ran => ran.fault.elim⟩
  induction fuel with
  | zero => exact deep
  | succ fuel ih =>
    rw [eval_succ]
    exact evalStep_follows ih

theorem Ran.define (inside : level < s.levels.size) (ran : Ran (define level x v) s done s') :
    s'.slots = s.slots.push v ∧ s'.next = s.next ∧ s'.levels.size = s.levels.size ∧
      ∀ i, s'.levelAt i = if level = i then
        { s.levelAt i with env := (x,s.slots.size) :: (s.levelAt level).env } else s.levelAt i := by
  cases ran
  exact ⟨rfl,rfl,Array.size_modify,fun i =>
    levelAt_modify { s with slots := s.slots.push v } level i _ inside⟩

theorem Ready.define {lookup' : String → Option Value} (ready : Ready s level names lookup)
    (kept : ∀ y ∈ names, lookup' y = lookup y) (meaning : lookup' x = some v) (datum : v.isDatum)
    (ran : Ran (define level x v) s done s') : Ready s' level (names ++ [x]) lookup' := by
  obtain ⟨slots,_,size,levels⟩ := ran.define ready.inside
  have now := (levels level).trans (if_pos rfl)
  unfold levelAt at now
  have value (y : String) : s'.valueAt level y =
      if y = x then some v else (s.levelAt level).env.value? (s.slots.push v) y := by
    rw [valueAt,now,slots]
    exact value?_extend ..
  have new : s'.valueAt level x = some v := (value x).trans (if_pos rfl)
  have old {y : String} {w : Value} (different : y ≠ x) (before : s.valueAt level y = some w) :
      s'.valueAt level y = some w := by
    rw [value,if_neg different]
    exact value?_push before v
  constructor
  · rw [size]
    exact ready.inside
  · intro rule
    rw [now]
    exact ready.native rule
  · intro y member
    by_cases same : y = x
    · exact same ▸ ⟨v,new,meaning,datum⟩
    · have known : y ∈ names := by simpa [same] using member
      obtain ⟨w,before,value,data⟩ := ready.bound y known
      exact ⟨w,old same before,(kept y known).trans value,data⟩
  · intro op
    by_cases same : op.name = x
    · exact ⟨v,same ▸ new,.inr datum⟩
    · obtain ⟨w,before,means⟩ := ready.primitives op
      exact ⟨w,old same before,means⟩

theorem bindEach_cons {eval : Evaluator} {b : Binding} {result : List Value × Bool}
    (ran : Ran (bindEach eval level before staged (b :: bindings)) s result s') :
    ∃ v bound now first second third, Ran (eval level b.init) s v first ∧
      Ran (define level b.name bound) second () third ∧
      Ran (bindEach eval level (before ++ [(b.name,v)]) now bindings) third result s' ∧
      (v.isCode = false → staged = false → bound = v ∧ now = false ∧ second = first) := by
  rw [bindEach_step] at ran
  obtain ⟨v,first,evaluating,referring⟩ := ran.bind
  obtain ⟨_,mid,referred,naming⟩ := referring.bind
  obtain ⟨bound,second,named,defining⟩ := naming.bind
  obtain ⟨_,third,defined,rest⟩ := defining.bind
  refine ⟨v,bound,_,first,second,third,evaluating,defined,rest,fun plain off => ?_⟩
  simp only [plain,off,Bool.false_and,Bool.or_self,Bool.false_eq_true,if_false] at referred named
  obtain ⟨_,rfl⟩ := referred.pure
  obtain ⟨rfl,rfl⟩ := named.pure
  exact ⟨rfl,by rw [plain,off]; rfl,rfl⟩

theorem bindEach_values {eval : Evaluator} {staged' : Bool}
    (ran : Ran (bindEach eval level before staged bindings) s (values,staged') s') :
    ∃ new, values = before.map snd ++ new ∧ new.length = bindings.length := by
  induction bindings generalizing s before staged with
  | nil =>
    obtain ⟨same,_⟩ := ran.pure
    cases same
    exact ⟨[],by simp⟩
  | cons b bindings ih =>
    obtain ⟨v,_,_,_,_,_,_,_,rest,_⟩ := bindEach_cons ran
    obtain ⟨new,same,length⟩ := ih rest
    exact ⟨v :: new,by simp [same],by simp [length]⟩

theorem lookup_snoc (fresh : x ∉ before.map fst) : (before ++ [(x,v)]).lookup x = some v ∧
      ∀ y ∈ before.map fst, (before ++ [(x,v)]).lookup y = before.lookup y := by
  have absent : before.lookup x = none := by
    rw [lookup_eq_none_iff]
    intro entry member
    simpa using fun same : x = entry.1 => fresh (same ▸ mem_map_of_mem member)
  constructor
  · simp [lookup_append,absent]
  · intro y member
    have different : y ≠ x := fun same => fresh (same ▸ member)
    simp [lookup_append,lookup_cons,beq_eq_false_iff_ne.mpr different]

theorem bindEach_yields {fuel : Nat} (distinct : (before.map fst ++ bindings.map name).Nodup)
    (plain : ∀ (i : Nat) b, bindings[i]? = some b → Plain (before.map fst ++ (bindings.map name).take i) b.init)
    (ready : Ready s level (before.map fst) fun x => before.lookup x)
    (ran : Ran (bindEach (eval fuel) level before false bindings) s (values,staged) s') :
    ∃ marks : Nat → Nat, marks 0 = s.next ∧ ∀ (i : Nat) b v, bindings[i]? = some b →
      values[before.length + i]? = some v → v.isDatum ∧
        Yields (fun x => (((before.map fst ++ bindings.map name).zip values).take
          (before.length + i)).lookup x) fuel b.init (marks i) v (marks (i + 1)) := by
  induction bindings generalizing s before with
  | nil => exact ⟨fun _ => s.next,rfl,by simp⟩
  | cons b bindings ih =>
    obtain ⟨v,bound,now,first,second,third,evaluating,defining,rest,same⟩ := bindEach_cons ran
    have initial : Plain (before.map fst) b.init := by simpa using plain 0 b rfl
    obtain ⟨yields,datum,moved⟩ := (eval_follows fuel).plain initial ready evaluating
    obtain ⟨named,rfl,rfl⟩ := same (isDatum_not_code datum) rfl
    rw [named] at defining
    obtain ⟨new,listed,_⟩ := bindEach_values rest
    have fresh : b.name ∉ before.map fst := by
      intro member
      exact (nodup_append.mp distinct).2.2 _ member _ mem_cons_self rfl
    obtain ⟨meaning,kept⟩ := lookup_snoc (v := v) fresh
    have ready' : Ready third level ((before ++ [(b.name,v)]).map fst)
        fun x => (before ++ [(b.name,v)]).lookup x := by
      rw [map_append]
      exact (moved ▸ ready.advance _).define kept meaning datum defining
    have names : (before ++ [(b.name,v)]).map fst ++ bindings.map name =
        before.map fst ++ (b :: bindings).map name := by simp
    have length (i : Nat) : (before ++ [(b.name,v)]).length + i = before.length + (i + 1) := by
      simp [Nat.add_assoc,Nat.add_comm 1 i]
    have plain' : ∀ (i : Nat) c, bindings[i]? = some c →
        Plain ((before ++ [(b.name,v)]).map fst ++ (bindings.map name).take i) c.init := by
      intro i c found
      simpa using plain (i + 1) c found
    obtain ⟨marks,start,each⟩ := ih (names ▸ distinct) plain' ready' rest
    have next : third.next = second.next := by
      have inside : level < second.levels.size := by
        rw [moved]
        exact ready.inside
      exact (defining.define inside).2.1
    refine ⟨fun i => if i = 0 then s.next else marks (i - 1),rfl,?_⟩
    intro i c w found value
    cases i with
    | zero =>
      cases found
      have here : values[before.length]? = some v := by simp [listed]
      cases here.symm.trans value
      refine ⟨datum,?_⟩
      have earlier : ((before.map fst ++ (b :: bindings).map name).zip values).take
          (before.length + 0) = before := by
        rw [listed,map_append,append_assoc,Nat.add_zero]
        rw [zip_append (by simp),take_append_of_le_length (by simp)]
        rw [zip_map']
        simp
      rw [earlier]
      simpa [start,next] using yields
    | succ i =>
      have result := each i c w found ((length i).symm ▸ value)
      rw [names,length] at result
      exact result

def LetForm.valueBefore (form : LetForm) (values : List Value) (i : Nat) (x : String) : Option Value :=
  ((form.names.zip values).take i).lookup x

/-- The bindings have these values, one after the other; the new cells of each are numbered from its
mark up to the next one. -/
structure LetForm.Evaluates (form : LetForm) (values : List Value) (depth : Nat)
    (marks : Nat → Nat) : Prop where
  full : values.length = form.bindings.length
  yields : ∀ (i : Nat) b v, form.bindings[i]? = some b → values[i]? = some v →
    v.isDatum ∧ Yields (form.valueBefore values i) depth b.init (marks i) v (marks (i + 1))

theorem bindEach_evaluates {form : LetForm} {fuel : Nat} (distinct : form.names.Nodup)
    (plain : form.IsPlain) (ready : Ready s level [] fun _ => none)
    (ran : Ran (bindEach (eval fuel) level [] false form.bindings) s (values,staged) s') :
    ∃ marks, marks 0 = s.next ∧ form.Evaluates values fuel marks := by
  obtain ⟨new,same,length⟩ := bindEach_values ran
  have initial : ∀ (i : Nat) b, form.bindings[i]? = some b → Plain (([] : List (String × Value)).map fst ++
        (form.bindings.map name).take i) b.init := plain
  have names : (([] : List (String × Value)).map fst ++ form.bindings.map name).Nodup := distinct
  obtain ⟨marks,start,each⟩ := bindEach_yields names initial ready ran
  refine ⟨marks,start,?_,?_⟩
  · simpa [same] using length
  · intro i b v found value
    have result := each i b v found (by simpa using value)
    rwa [length_nil,Nat.zero_add] at result

end StagedLisp
