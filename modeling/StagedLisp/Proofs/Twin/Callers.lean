import StagedLisp.Proofs.Eval.Compilation
import StagedLisp.Proofs.Twin.Rules

/-! Calls from two levels. A procedure sees its own environment and not the caller's; what it takes over
from the caller is the level above, the rules, the staging, and the shapes of the compiled bindings
around, of which only the names count that occur in code within reach. -/
namespace StagedLisp

open List
open Relation (ReflTransGen)

variable {v w : Value} {l : Level}

/-- What a level refers to besides its environment. -/
inductive Level.Refers (l : Level) : Value → Prop where
  | handler {rule v} : l.handlers.get rule = .reflected v → Refers l v
  | above {p} : l.parent = some p → Refers l (.level p)

/-- What can be got at from a value directly. -/
inductive Store.Leads (s : Store) : Value → Value → Prop where
  | head {cell head tail} : Leads s (.pair cell head tail) head
  | tail {cell head tail} : Leads s (.pair cell head tail) tail
  | body {id params body env} : Leads s (.closure id params body env) body
  | captured {id params body v env x slot} :
      (x,slot) ∈ env → s.slots[slot]? = some v → Leads s (.closure id params body env) v
  | bound {k v x slot} : (x,slot) ∈ (s.levelAt k).env → s.slots[slot]? = some v → Leads s (.level k) v
  | refers {k v} : (s.levelAt k).Refers v → Leads s (.level k) v

/-- What can be got at in a call from a level, with the procedure and operands given. -/
def Store.InReach (s : Store) (caller : Nat) (given : List Value) (v : Value) : Prop :=
  ∃ u, (u ∈ given ∨ (s.levelAt caller).Refers u) ∧ ReflTransGen s.Leads u v

theorem Store.InReach.closed {s : Store} {caller : Nat} {given : List Value} {P : Value → Prop}
    (reached : s.InReach caller given v) (start : ∀ u ∈ given, P u)
    (refers : ∀ u, (s.levelAt caller).Refers u → P u)
    (step : ∀ u w, P u → s.Leads u w → P w) : P v := by
  obtain ⟨u,here,path⟩ := reached
  induction path with
  | refl => exact here.elim (start u) (refers u)
  | tail _ leads ih => exact step _ _ ih leads

/-- The code in reach has symbols among the names. -/
def Store.CodeSpelled (s : Store) (caller : Nat) (given : List Value) (names : String → Prop) : Prop :=
  ∀ id params body env, s.InReach caller given (.closure id params body env) → body.Spelled names

theorem Value.Like.eq {E : Value → Env → Env → Prop} {L : Nat → Nat → Prop}
    (like : v.Like E L w) (envs : ∀ body env env', E body env env' → env = env')
    (levels : ∀ i j, L i j → i = j) : v = w := by
  induction like with
  | pair _ _ _ head tail => rw [head,tail]
  | closure _ _ _ agree _ => rw [envs _ _ _ agree]
  | level here => rw [levels _ _ here]
  | _ => rfl

namespace Twin

variable {s : Store} {caller : Nat} {given : List Value} {names : String → Prop}

theorem no_early {r m : Nat} {P : Prop} (early : (⟨names,none,false⟩ : Setting).early = some (r,m)) : P := by
  cases early

theorem inReach_step (reached : s.InReach caller given v) (leads : s.Leads v w) : s.InReach caller given w := by
  obtain ⟨u,start,path⟩ := reached
  exact ⟨u,start,path.tail leads⟩

/-- Everything in reach has the same number in both runs. -/
def reachNumbering (s : Store) (caller : Nat) (given : List Value) : Numbering where
  slots a b := a = b ∧ ((∃ id params body env x,
    s.InReach caller given (.closure id params body env) ∧ (x,a) ∈ env) ∨
    ∃ k x, s.InReach caller given (.level k) ∧ (x,a) ∈ (s.levelAt k).env)
  levels i j := i = j ∧ s.InReach caller given (.level i)
  seen _ _ := True

theorem envLike_self {σ : Setting} {n : Numbering} {seen : String → Prop} {env : Env}
    (each : ∀ x slot, (x,slot) ∈ env → n.slots slot slot) : EnvLike σ n seen env env :=
  .of_entries (forall₂_same.mpr fun entry member => ⟨rfl,each entry.1 entry.2 member⟩)

variable (spelled : s.CodeSpelled caller given names)

include spelled

theorem inReach_like (reached : s.InReach caller given v) :
    Values ⟨names,none,false⟩ (reachNumbering s caller given) v v := by
  induction v with
  | int n => exact .int n
  | sym x => exact .sym x
  | nil => exact .nil
  | prim op => exact .prim op
  | code c => exact .code c
  | pair cell head tail ihHead ihTail =>
    exact .pair cell (ihHead (inReach_step reached .head)) (ihTail (inReach_step reached .tail))
  | closure id params body env ih =>
    refine .closure id params (ih (inReach_step reached .body)) ⟨spelled _ _ _ _ reached,?_⟩
    exact envLike_self fun x slot member => ⟨rfl,.inl ⟨id,params,body,env,x,reached,member⟩⟩
  | level k => exact .level ⟨rfl,reached⟩

theorem inReach_handler (within : ∀ v, l.Refers v → s.InReach caller given v) (rule : Rule) :
    HandlerLike ⟨names,none,false⟩ (reachNumbering s caller given) (l.handlers.get rule) (l.handlers.get rule) := by
  cases found : l.handlers.get rule with
  | native => exact .native
  | reflected v => exact .reflected (inReach_like spelled (within v (.handler found)))

omit spelled in
theorem inReach_above (within : ∀ v, l.Refers v → s.InReach caller given v) :
    Above ⟨names,none,false⟩ (reachNumbering s caller given) s l.parent l.parent := by
  cases found : l.parent with
  | none => exact .none
  | some p => exact .some ⟨rfl,within _ (.above found)⟩ (fun loose => by cases loose) fun _ _ => no_early

theorem inReach_stores : Stores ⟨names,none,false⟩ (reachNumbering s caller given) s s where
  next := rfl
  options := rfl
  registry := rfl
  arena := rfl
  oneSlot := by
    rintro a _ a' _ ⟨rfl,_⟩ ⟨rfl,_⟩
    exact Iff.rfl
  oneLevel := by
    rintro i _ i' _ ⟨rfl,_⟩ ⟨rfl,_⟩
    exact Iff.rfl
  slot := by
    rintro a _ ⟨rfl,held⟩
    cases found : s.slots[a]? with
    | none => exact .none
    | some v =>
      refine .some (inReach_like spelled ?_)
      rcases held with ⟨id,params,body,env,x,reached,member⟩ | ⟨k,x,reached,member⟩
      · exact inReach_step reached (.captured member found)
      · exact inReach_step reached (.bound member found)
  level := by
    rintro k _ ⟨rfl,reached⟩
    have within (v : Value) (refers : (s.levelAt k).Refers v) := inReach_step reached (.refers refers)
    refine ⟨⟨inReach_above within,inReach_handler spelled within,rfl,fun _ _ => rfl⟩,?_,rfl⟩
    exact envLike_self fun x slot member => ⟨rfl,.inr ⟨k,x,reached,member⟩⟩
  exact _ := ⟨fun _ _ here => here.1,fun _ _ _ here => here.1,rfl,rfl⟩
  loose loose := by cases loose
  early _ _ := no_early

end Twin

open Twin in
/-- A call gives the same value, or an error of the same kind and wording, from any two levels with the
same level above, rules and staging that know the same shapes of the names in the code within reach. -/
theorem applyTo_lexical (fuel : Nat) (s : Store) (a b : Nat) (procedure : Value) (args : List Value)
    (parent : (s.levelAt a).parent = (s.levelAt b).parent)
    (handlers : (s.levelAt a).handlers = (s.levelAt b).handlers)
    (staging : (s.levelAt a).staging = (s.levelAt b).staging) (names : String → Prop)
    (spelled : s.CodeSpelled a (procedure :: args) names)
    (known : (s.levelAt a).known.Agree names (s.levelAt b).known) :
    Result.Alike Eq ((Eval.applyTo (eval fuel) a procedure args).run.run s).1
      ((Eval.applyTo (eval fuel) b procedure args).run.run s).1 := by
  have within (v : Value) (refers : (s.levelAt a).Refers v) : s.InReach a (procedure :: args) v :=
    ⟨v,.inr refers,.refl⟩
  have started (v : Value) (member : v ∈ procedure :: args) : s.InReach a (procedure :: args) v :=
    ⟨v,.inl member,.refl⟩
  have callers : Callers ⟨names,none,false⟩ (reachNumbering s a (procedure :: args)) s s a b := by
    refine ⟨⟨?_,fun rule => ?_,staging,known⟩,fun _ _ => no_early⟩
    · rw [← parent]
      exact inReach_above within
    · rw [← handlers]
      exact inReach_handler spelled within rule
  have each : Forall₂ (Values ⟨names,none,false⟩ (reachNumbering s a (procedure :: args))) args args :=
    forall₂_same.mpr fun v member =>
      inReach_like spelled (started v (.tail _ member))
  have runs := (eval_twins ⟨names,none,false⟩ fuel).applyTo (inReach_stores spelled) callers
    (inReach_like spelled (started procedure mem_cons_self)) each
  obtain ⟨n,evolves,results⟩ := runs fun _ _ => no_early
  have exact := evolves.stores.exact rfl
  refine results.mono fun v w like => Value.Like.eq like (fun _ _ _ here => ?_) (exact.levels rfl)
  exact forall₂_eq_eq_eq ▸ (here.2.entries rfl).imp fun p q same =>
    Prod.ext same.1 (exact.slots same.2)

/-- `(let ((y (cons p 1))) (car y))` -/
def firstOfPair : Value :=
  .ofParts [.sym "let",.ofParts [.ofParts [.sym "y",.ofParts [.sym "cons",.sym "p",.int 1]]],
    .ofParts [.sym "car",.sym "y"]]

def pairProcedure : Value := .closure 0 ["p"] firstOfPair [("cons",0),("car",1)]

/-- Two levels to call from. The second has a binding of its own and is inside a compiled block, where it
knows the shape of a name. -/
def twoCallers (x : String) : Store where
  slots := #[.prim .cons,.prim .car]
  levels := #[{ env := [] },{ env := [(x,0)],known := [(x,.tree)] }]

/-- The text of the block in the body, for a shape of `y` and a routine that releases it. -/
def pairBlock (shape routine : String) : String :=
  "(\x7b\n  Obj* y = mk_pair(mk_int(5), mk_int(1)); /* y: shape " ++ shape ++ ", escape arg */\n" ++
    "  Obj* _res = car(y);\n  " ++ routine ++ "(y); /* y: " ++ shape ++ ", " ++ routine ++ " */\n" ++
    "  _res;\n\x7d)"

/-- A caller that knows the shape of its own `p` gets another block, which frees `y` as a tree. -/
theorem caller_shape_seen :
    ((twoCallers "p").levelAt 0).parent = ((twoCallers "p").levelAt 1).parent ∧
    ((twoCallers "p").levelAt 0).handlers = ((twoCallers "p").levelAt 1).handlers ∧
    ((twoCallers "p").levelAt 0).staging = ((twoCallers "p").levelAt 1).staging ∧
    ((Eval.applyTo (eval 9) 0 pairProcedure [.code (.int .heap 5)]).run.run
      (twoCallers "p")).1.toOption.map Value.text = some (pairBlock "dag" "dec_ref") ∧
    ((Eval.applyTo (eval 9) 1 pairProcedure [.code (.int .heap 5)]).run.run
      (twoCallers "p")).1.toOption.map Value.text = some (pairBlock "tree" "free_tree") :=
  ⟨rfl,rfl,rfl,by decide +kernel,by decide +kernel⟩

theorem pairProcedure_reach
    (reached : (twoCallers "q").InReach 0 [pairProcedure,.code (.int .heap 5)] v) :
    v = pairProcedure ∨ v.isDatum ∨ (∃ op, v = .prim op) ∨ ∃ c, v = .code c := by
  refine reached.closed (P := fun v => v = pairProcedure ∨ v.isDatum ∨ (∃ op, v = .prim op) ∨
    ∃ c, v = .code c) (fun u member => ?_) (fun u refers => ?_) fun u w here leads => ?_
  · simp only [mem_cons,not_mem_nil,or_false] at member
    rcases member with rfl | rfl
    · exact .inl rfl
    · exact .inr (.inr (.inr ⟨_,rfl⟩))
  · cases refers with
    | @handler rule _ found => cases rule <;> cases found
    | above found => cases found
  · rcases here with rfl | datum | ⟨op,rfl⟩ | ⟨c,rfl⟩
    · cases leads with
      | body => exact .inr (.inl rfl)
      | captured member found =>
        simp only [mem_cons,Prod.mk.injEq,not_mem_nil,or_false] at member
        rcases member with ⟨_,rfl⟩ | ⟨_,rfl⟩
        · exact .inr (.inr (.inl ⟨.cons,(Option.some.inj found).symm⟩))
        · exact .inr (.inr (.inl ⟨.car,(Option.some.inj found).symm⟩))
    · cases leads with
      | head => exact .inr (.inl (Bool.and_eq_true_iff.mp datum).1)
      | tail => exact .inr (.inl (Bool.and_eq_true_iff.mp datum).2)
      | body | captured | bound | refers => cases datum
    · cases leads
    · cases leads

/-- A name that the procedure does not mention makes no difference. -/
theorem pairProcedure_lexical :
    (twoCallers "q").CodeSpelled 0 [pairProcedure,.code (.int .heap 5)] (· ≠ "q") ∧
    ((twoCallers "q").levelAt 0).known.Agree (· ≠ "q") ((twoCallers "q").levelAt 1).known ∧
    Result.Alike Eq ((Eval.applyTo (eval 9) 0 pairProcedure [.code (.int .heap 5)]).run.run
      (twoCallers "q")).1
      ((Eval.applyTo (eval 9) 1 pairProcedure [.code (.int .heap 5)]).run.run (twoCallers "q")).1 := by
  have spelled : (twoCallers "q").CodeSpelled 0 [pairProcedure,.code (.int .heap 5)] (· ≠ "q") := by
    intro id params body env reached
    rcases pairProcedure_reach reached with same | datum | ⟨op,same⟩ | ⟨c,same⟩
    · cases same
      exact of_decide_eq_true rfl
    · cases datum
    · cases same
    · cases same
  have known : ((twoCallers "q").levelAt 0).known.Agree (· ≠ "q")
      ((twoCallers "q").levelAt 1).known := by
    intro x other
    have apart : (x == "q") = false := beq_eq_false_iff_ne.mpr other
    show none = List.lookup x [("q",Shape.tree)]
    rw [lookup_cons,apart]
    rfl
  exact ⟨spelled,known,applyTo_lexical 9 (twoCallers "q") 0 1 pairProcedure _ rfl rfl rfl _ spelled known⟩

end StagedLisp
