import StagedLisp.Proofs.Eval.Compilation
import StagedLisp.Proofs.Eval.Depth
import StagedLisp.Proofs.Value.Cleared

/-! Evaluation without staging. At a level that does not stage, `lift` and `run` do nothing: an
expression and the same one without them yield the same, up to such forms in the bodies of
procedures. -/
namespace StagedLisp

open List Eval Value Store Primitive Option
open Value (KeepsCall)

variable {form : LetForm} {entries : List (String × Value)} {args operands : List Value}
  {operator test onTrue first : Value}

structure Store.Beyond (count : Nat) (s s' : Store) : Prop where
  more : s.levels.size ≤ s'.levels.size
  same : ∀ i < count, s'.levelAt i = s.levelAt i

namespace Store.Beyond

variable {count count' : Nat} {s s' s'' : Store}

theorem of_levels (same : s'.levels = s.levels) : s.Beyond count s' where
  more := (congrArg Array.size same).ge
  same i _ := by rw [levelAt,same,levelAt]

theorem trans (first : s.Beyond count s') (second : s'.Beyond count s'') : s.Beyond count s'' where
  more := first.more.trans second.more
  same i below := (second.same i below).trans (first.same i below)

theorem mono (beyond : s.Beyond count s') (fewer : count' ≤ count) : s.Beyond count' s' :=
  ⟨beyond.more,fun i below => beyond.same i (by omega)⟩

theorem push (s : Store) (l : Level) : s.Beyond s.levels.size { s with levels := s.levels.push l } where
  more := by simp
  same i below := by rw [s.levelAt_push i l,if_neg below.ne]

end Store.Beyond

structure Slots.Clears (slots slots' : Slots) : Prop where
  values : slots' = slots.map cleared
  core : ∀ v ∈ slots, v.IsCore KeepsCall

structure Store.Clears (s t : Store) : Prop where
  slots : Slots.Clears s.slots t.slots
  next : t.next = s.next

structure Aligned (a b : Nat) (s t : Store) : Prop where
  inside : a < s.levels.size
  inside' : b < t.levels.size
  native : s.Native a
  native' : t.Native b
  env : (t.levelAt b).env = (s.levelAt a).env

structure Faces (a b : Nat) (s t : Store) : Prop extends Aligned a b s t where
  off : (s.levelAt a).staging = false

/-- Whatever the first computation yields at the level `a`, the second one yields something related
at the level `b`. Levels below `c` and `d` stay as they are. -/
def Simulates (c d a b : Nat) {α β : Type} (R : α → β → Prop) (x : Eval α) (y : Eval β) : Prop :=
  ∀ (s t s' : Store) (v : α), s.Clears t → Faces a b s t → c ≤ s.levels.size → d ≤ t.levels.size →
    Ran x s v s' → ∃ w t', Ran y t w t' ∧ s'.Clears t' ∧ Faces a b s' t' ∧ s.Beyond c s' ∧ t.Beyond d t' ∧ R v w

abbrev Core : Value → Prop := CoreExpr KeepsCall

abbrev ClearedTo : Value → Value → Prop := ClearsTo KeepsCall

abbrev Erased (c d a b : Nat) : Eval Value → Eval Value → Prop := Simulates c d a b ClearedTo

def EachClearedTo (vs ws : List Value) : Prop :=
  ws = vs.map cleared ∧ ∀ v ∈ vs, v.IsCore KeepsCall

/-- The second evaluator does without staging what the first one does. -/
def Evaluator.Erases (eval eval' : Evaluator) : Prop :=
  ∀ (c d a b : Nat) (e : Value), Core e → Erased c d a b (eval a e) (eval' b e.unstaged)

namespace Faces

variable {a b c d : Nat} {s s' t t' : Store}

theorem beyond (faces : Faces a b s t) (left : s.Beyond c s') (right : t.Beyond d t')
    (below : a < c) (below' : b < d) : Faces a b s' t' where
  inside := faces.inside.trans_le left.more
  inside' := faces.inside'.trans_le right.more
  native rule := by rw [left.same a below]; exact faces.native rule
  native' rule := by rw [right.same b below']; exact faces.native' rule
  off := by rw [left.same a below]; exact faces.off
  env := by rw [left.same a below,right.same b below']; exact faces.env

theorem of_levels (faces : Faces a b s t) (left : s'.levels = s.levels)
    (right : t'.levels = t.levels) : Faces a b s' t' :=
  faces.beyond (c := a + 1) (d := b + 1) (.of_levels left) (.of_levels right) a.lt_succ_self b.lt_succ_self

theorem scopes (faces : Faces a b s t) (env : Env) : Faces s.levels.size t.levels.size
      { s with levels := s.levels.push ((s.levelAt a).scope env) }
      { t with levels := t.levels.push ((t.levelAt b).scope env) } where
  inside := by simp
  inside' := by simp
  native rule := by rw [s.levelAt_push,if_pos rfl]; exact faces.native rule
  native' rule := by rw [t.levelAt_push,if_pos rfl]; exact faces.native' rule
  off := by rw [s.levelAt_push,if_pos rfl]; exact faces.off
  env := by rw [s.levelAt_push,if_pos rfl,t.levelAt_push,if_pos rfl]; rfl

end Faces

def clearedEntries (entries : List (String × Value)) : List (String × Value) :=
  entries.map fun entry => (entry.1,entry.2.cleared)

theorem clearedEntries_zip (names : List String) (values : List Value) :
    clearedEntries (names.zip values) = names.zip (values.map cleared) := by
  rw [zip_map_right]
  rfl

namespace Slots.Clears

variable {slots slots' : Slots} {v : Value} (clears : Slots.Clears slots slots')

include clears

theorem size : slots'.size = slots.size := by rw [clears.values,Array.size_map]

theorem push (core : v.IsCore KeepsCall) : Slots.Clears (slots.push v) (slots'.push v.cleared) where
  values := by rw [clears.values,Array.map_push]
  core w member := by
    rcases Array.mem_push.mp member with old | rfl
    · exact clears.core w old
    · exact core

theorem set (slot : Nat) (core : v.IsCore KeepsCall) :
    Slots.Clears (slots.setIfInBounds slot v) (slots'.setIfInBounds slot v.cleared) where
  values := by rw [clears.values,Array.map_setIfInBounds]
  core w member := by
    rcases Array.mem_or_eq_of_mem_setIfInBounds member with old | rfl
    · exact clears.core w old
    · exact core

theorem extendAll (core : ∀ entry ∈ entries, entry.2.IsCore KeepsCall) (env : Env) :
    (env.extendAll slots' (clearedEntries entries)).1 = (env.extendAll slots entries).1 ∧
      Slots.Clears (env.extendAll slots entries).2 (env.extendAll slots' (clearedEntries entries)).2 := by
  induction entries generalizing slots slots' env with
  | nil => exact ⟨rfl,clears⟩
  | cons entry entries ih =>
    have rest := ih (clears.push (core entry mem_cons_self)) (fun other member => core other (.tail _ member))
      ((entry.1,slots'.size) :: env)
    nth_rewrite 2 [clears.size] at rest
    nth_rewrite 2 [clears.size] at rest
    exact rest

theorem value? {env : Env} {x : String} (found : env.value? slots x = some v) :
    env.value? slots' x = some v.cleared ∧ v.IsCore KeepsCall := by
  obtain ⟨slot,named,held⟩ := bind_eq_some_iff.mp found
  refine ⟨bind_eq_some_iff.mpr ⟨slot,named,?_⟩,clears.core v (Array.mem_of_getElem? held)⟩
  rw [clears.values,Array.getElem?_map,held]
  rfl

end Slots.Clears

theorem Store.Clears.levels {s t : Store} (clears : s.Clears t) (l m : Array Level) :
    Clears { s with levels := l } { t with levels := m } :=
  ⟨clears.slots,clears.next⟩

namespace Simulates

variable {α β γ δ : Type} {c d a b : Nat} {R : α → β → Prop} {Q : γ → δ → Prop} {x : Eval α}
  {y : Eval β} {f : α → Eval γ} {g : β → Eval δ}

theorem bind (first : Simulates c d a b R x y) (next : ∀ v w, R v w → Simulates c d a b Q (f v) (g w)) :
    Simulates c d a b Q (x >>= f) (y >>= g) := by
  intro s t s' v clears faces fits fits' ran
  obtain ⟨u,mid,ran,rest⟩ := ran.bind
  obtain ⟨w,mid',ran',clears,faces,left,right,related⟩ := first _ _ _ _ clears faces fits fits' ran
  obtain ⟨w',t',rest',clears,faces,left',right',related⟩ := next u w related _ _ _ _ clears faces
    (fits.trans left.more) (fits'.trans right.more) rest
  exact ⟨w',t',ran'.andThen rest',clears,faces,left.trans left',right.trans right',related⟩

theorem pure {v : α} {w : β} (related : R v w) : Simulates c d a b R (Pure.pure v) (Pure.pure w) := by
  intro s t s' u clears faces _ _ ran
  obtain ⟨rfl,rfl⟩ := ran.pure
  exact ⟨w,t,rfl,clears,faces,.of_levels rfl,.of_levels rfl,related⟩

theorem fault {cause : Fault} : Simulates c d a b R (fault cause) y := by
  intro s t s' v _ _ _ _ ran
  exact ran.fault.elim

theorem adapt {f g : Error → Error} (simulates : Simulates c d a b R x y) :
    Simulates c d a b R (x.adapt f) (y.adapt g) := by
  intro s t s' v clears faces fits fits' ran
  obtain ⟨w,t',ran,rest⟩ := simulates _ _ _ _ clears faces fits fits' ran.adapt
  exact ⟨w,t',ran.adapted,rest⟩

theorem below {y' : Eval β} (simulates : Simulates c d a b R x y) (below : y.Below y') :
    Simulates c d a b R x y' := by
  intro s t s' v clears faces fits fits' ran
  obtain ⟨w,t',ran,rest⟩ := simulates _ _ _ _ clears faces fits fits' ran
  exact ⟨w,t',below t w t' ran,rest⟩

theorem result {result : Result α} {z : Eval δ} (next : ∀ v, result = .ok v →
    Simulates c d a b Q (f v) z) : Simulates c d a b Q (ofResult result >>= f) z := by
  intro s t s' v clears faces fits fits' ran
  obtain ⟨u,ok,rest⟩ := ran.bind_result
  exact next u ok _ _ _ _ clears faces fits fits' rest

theorem level : Simulates c d a b (fun l m => m.env = l.env ∧ l.staging = false) (level a) (level b) := by
  intro s t s' l clears faces _ _ ran
  obtain ⟨rfl,rfl⟩ := ran.level
  exact ⟨t.levelAt b,t,rfl,clears,faces,.of_levels rfl,.of_levels rfl,faces.env,faces.off⟩

theorem of_store (step : ∀ (s t s' : Store) (v : α), s.Clears t →
      Ran x s v s' → ∃ w t', Ran y t w t' ∧ s'.Clears t' ∧ s'.levels = s.levels ∧
        t'.levels = t.levels ∧ R v w) : Simulates c d a b R x y := by
  intro s t s' v clears faces _ _ ran
  obtain ⟨w,t',ran,clears,left,right,related⟩ := step _ _ _ _ clears ran
  exact ⟨w,t',ran,clears,faces.of_levels left right,.of_levels left,.of_levels right,related⟩

theorem fresh : Simulates c d a b Eq fresh fresh := by
  refine of_store fun s t s' v clears ran => ?_
  cases ran
  exact ⟨t.next,_,rfl,⟨clears.slots,congrArg (· + 1) clears.next⟩,rfl,rfl,clears.next.symm⟩

theorem extendAll (core : ∀ entry ∈ entries, entry.2.IsCore KeepsCall) (env : Env) :
    Simulates c d a b Eq (extendAll env entries) (extendAll env (clearedEntries entries)) := by
  refine of_store fun s t s' v clears ran => ?_
  cases ran
  obtain ⟨same,slots⟩ := clears.slots.extendAll core env
  exact ⟨_,_,rfl,⟨slots,clears.next⟩,rfl,rfl,same.symm⟩

theorem value? (env : Env) (x : String) : Simulates c d a b (fun old new => ∀ v, old = some v →
      new = some v.cleared ∧ v.IsCore KeepsCall) (value? env x) (value? env x) := by
  refine of_store fun s t s' old clears ran => ?_
  cases ran
  exact ⟨_,t,rfl,clears,rfl,rfl,fun v found => clears.slots.value? found⟩

theorem assign {v : Value} (core : v.IsCore KeepsCall) (env : Env) (x : String) :
    Simulates c d a b (fun _ _ => True) (assign env x v) (assign env x v.cleared) := by
  refine of_store fun s t s' done clears ran => ?_
  unfold Eval.assign Env.assign? at ran ⊢
  cases named : env.slot? x with
  | none =>
    rw [named] at ran
    cases ran
    exact ⟨_,_,rfl,clears,rfl,rfl,trivial⟩
  | some slot =>
    rw [named] at ran
    cases ran
    exact ⟨_,_,rfl,⟨clears.slots.set slot core,clears.next⟩,rfl,rfl,trivial⟩

theorem primitive (op : Primitive) (core : ∀ v ∈ args, v.IsCore KeepsCall) :
    Erased c d a b (primitive op args) (primitive op (args.map cleared)) := by
  refine of_store fun s t s' v clears ran => ?_
  obtain ⟨applied,moved⟩ := ran.primitive
  obtain ⟨applied',core⟩ := apply_cleared core applied
  rw [← clears.next] at applied'
  refine ⟨v.cleared,{ t with next := s'.next },?_,?_,?_,rfl,rfl,core⟩
  · exact Ran.andThen (a := t) rfl (Ran.andThen (a := (v.cleared,s'.next)) (by rw [applied']; rfl) rfl)
  · rw [moved]
    exact ⟨clears.slots,rfl⟩
  · rw [moved]

theorem scope {f : Nat → Eval α} {g : Nat → Eval β} (env : Env) (inner : ∀ i j, Simulates i j i j R (f i) (g j)) :
    Simulates c d a b R (scope a env >>= f) (scope b env >>= g) := by
  intro s t s' v clears faces fits fits' ran
  obtain ⟨i,mid,opened,rest⟩ := ran.bind
  obtain ⟨rfl,rfl⟩ := opened.scope
  have start := Beyond.push s ((s.levelAt a).scope env)
  have start' := Beyond.push t ((t.levelAt b).scope env)
  obtain ⟨w,t',ran',clears,_,left,right,related⟩ := inner s.levels.size t.levels.size _ _ _ _
    (clears.levels _ _) (faces.scopes env) start.more start'.more rest
  have left := start.trans left
  have right := start'.trans right
  exact ⟨w,t',Ran.andThen rfl ran',clears,faces.beyond left right faces.inside faces.inside',
    left.mono fits,right.mono fits',related⟩

theorem define {v : Value} (core : v.IsCore KeepsCall) (above : c ≤ a) (above' : d ≤ b)
    (x : String) : Simulates c d a b (fun _ _ => True) (define a x v) (define b x v.cleared) := by
  intro s t s' done clears faces _ _ ran
  obtain ⟨slots,next,size,level⟩ := ran.define faces.inside
  obtain ⟨t',ran'⟩ : ∃ t', Ran (Eval.define b x v.cleared) t () t' := ⟨_,rfl⟩
  obtain ⟨slots',next',size',level'⟩ := ran'.define faces.inside'
  refine ⟨(),t',ran',?_,?_,?_,?_,trivial⟩
  · exact ⟨by rw [slots,slots']; exact clears.slots.push core,by rw [next,next',clears.next]⟩
  · refine ⟨⟨size ▸ faces.inside,size' ▸ faces.inside',fun rule => ?_,fun rule => ?_,?_⟩,?_⟩
    · rw [level,if_pos rfl]
      exact faces.native rule
    · rw [level',if_pos rfl]
      exact faces.native' rule
    · rw [level,if_pos rfl,level',if_pos rfl,clears.slots.size,faces.env]
    · rw [level,if_pos rfl]
      exact faces.off
  · exact ⟨size.ge,fun i below => (level i).trans (if_neg (by omega))⟩
  · exact ⟨size'.ge,fun i below => (level' i).trans (if_neg (by omega))⟩

theorem dispatch {x y : Eval Value} {R : Value → Value → Prop} (simulates : Simulates c d a b R x y)
    (rule : Rule) (reflected reflected' : Evaluator) (e e' : Value) :
    Simulates c d a b R (dispatch rule x reflected a e) (dispatch rule y reflected' b e') := by
  intro s t s' v clears faces fits fits' ran
  obtain ⟨w,t',ran',rest⟩ := simulates _ _ _ _ clears faces fits fits' (faces.native.dispatch ran)
  refine ⟨w,t',Ran.andThen (a := t.levelAt b) rfl ?_,rest⟩
  rwa [faces.native' rule]

end Simulates

section Rules

variable {eval eval' : Evaluator} (erases : eval.Erases eval') {c d a b : Nat}

theorem variable_erases (x : String) : Erased c d a b (variableRule a (.sym x)) (variableRule b (.sym x)) := by
  refine Simulates.level.bind fun l m same => ?_
  rw [same.1]
  refine (Simulates.value? l.env x).bind fun old new found => ?_
  cases old with
  | none => exact .fault
  | some v =>
    obtain ⟨rfl,core⟩ := found v rfl
    exact .pure ⟨rfl,core⟩

include erases

theorem each_erases {es : List Value} (core : ∀ e ∈ es, Core e) :
    Simulates c d a b EachClearedTo (eval.each a es) (eval'.each b (es.map unstaged)) := by
  induction es with
  | nil => exact .pure ⟨rfl,fun _ member => (nomatch member)⟩
  | cons e es ih =>
    refine (erases c d a b _ (core e mem_cons_self)).bind fun v w first => ?_
    refine (ih fun e member => core e (.tail _ member)).bind fun vs ws rest => ?_
    obtain ⟨rfl,first⟩ := first
    obtain ⟨rfl,rest⟩ := rest
    exact .pure ⟨rfl,forall_mem_cons.mpr ⟨first,rest⟩⟩

theorem applyTo_erases {procedure : Value}
    (core : procedure.IsCore KeepsCall) (each : ∀ v ∈ args, v.IsCore KeepsCall) :
    Erased c d a b (applyTo eval a procedure args) (applyTo eval' b procedure.cleared (args.map cleared)) := by
  cases procedure with
  | prim op => exact .primitive op each
  | closure id params body env =>
    have entries (entry : String × Value) (member : entry ∈ params.zip args) :
        entry.2.IsCore KeepsCall := each _ (of_mem_zip member).2
    show Erased c d a b _ (extendAll env (params.zip (args.map cleared)) >>= _)
    rw [← clearedEntries_zip]
    refine (Simulates.extendAll entries env).bind fun grown grown' same => ?_
    subst same
    exact .scope grown fun i j => (erases i j i j _ core).adapt
  | code | level => exact core.elim
  | _ => exact .fault

theorem call_erases {e : Value} (items : e.formItems? = some (operator :: operands)) {e' : Value}
    (items' : e'.formItems? = some (operator.unstaged :: operands.map unstaged))
    (first : Core operator) (parts : ∀ p ∈ operands, Core p) :
    Erased c d a b (callRule eval a e) (callRule eval' b e') := by
  obtain ⟨cell,tail,rfl,rest⟩ := formItems_cons items
  obtain ⟨cell',tail',rfl,rest'⟩ := formItems_cons items'
  unfold callRule
  simp only [items?,rest,rest',Functor.map,map_some]
  refine (erases c d a b _ first).bind fun procedure _ cleared => ?_
  obtain ⟨rfl,core⟩ := cleared
  refine (each_erases erases parts).bind fun args _ cleared => ?_
  obtain ⟨rfl,each⟩ := cleared
  exact applyTo_erases erases core each

theorem conditional_erases {e e' : Value} {onFalse : Option Value} (tests : Core test) (first : Core onTrue)
    (second : ∀ p ∈ onFalse, Core p) :
    Erased c d a b (conditional eval a e test onTrue onFalse)
      (conditional eval' b e' test.unstaged onTrue.unstaged (onFalse.map unstaged)) := by
  rw [conditional_step,conditional_step]
  refine (erases c d a b _ tests).bind fun v _ cleared => ?_
  obtain ⟨rfl,core⟩ := cleared
  rw [core.code?_eq_none.1,core.code?_eq_none.2,cleared_truthy]
  show Erased c d a b (if v.truthy then _ else _) (if v.truthy then _ else _)
  split
  · exact erases c d a b _ first
  · cases onFalse with
    | none => exact .pure ⟨rfl,trivial⟩
    | some part => exact erases c d a b _ (second part rfl)

theorem bindEach_erases {bindings : List Binding} (core : ∀ p ∈ bindings, Core p.init)
    (above : c ≤ a) (above' : d ≤ b) (done done' : List (String × Value)) :
    Simulates c d a b (fun result result' => result.2 = false ∧ result'.2 = false)
      (bindEach eval a done false bindings)
      (bindEach eval' b done' false (bindings.map fun p => ⟨p.name,p.init.unstaged⟩)) := by
  induction bindings generalizing done done' with
  | nil => exact .pure ⟨rfl,rfl⟩
  | cons p rest ih =>
    rw [map_cons,bindEach_step,bindEach_step]
    refine (erases c d a b _ (core p mem_cons_self)).bind fun v _ cleared => ?_
    obtain ⟨rfl,value⟩ := cleared
    simp only [cleared_isCode,value.not_code,Bool.false_and,Bool.or_self,Bool.false_eq_true,if_false,pure_bind]
    refine (Simulates.define value above above' p.name).bind fun _ _ _ => ?_
    exact ih (fun q member => core q (.tail _ member)) _ _

theorem plainLet_erases (inits : ∀ p ∈ form.bindings, Core p.init) (body : Core form.body) :
    Erased c d a b (plainLet eval form a false) (plainLet eval' form.unstaged b false) := by
  refine Simulates.level.bind fun l m same => ?_
  rw [same.1]
  refine .scope l.env fun i j => ?_
  refine (bindEach_erases erases inits le_rfl le_rfl [] []).bind fun result result' plain => ?_
  simp only [plain.1,plain.2,Bool.false_eq_true,if_false]
  exact erases i j i j _ body

omit erases in
theorem assignEach_erases {names : List String} {values : List Value}
    (each : ∀ v ∈ values, v.IsCore KeepsCall) (env : Env) :
    Simulates c d a b (fun _ _ => True) (assignEach env (names.zip values))
      (assignEach env (names.zip (values.map cleared))) := by
  induction names generalizing values with
  | nil => exact .pure trivial
  | cons name names ih =>
    cases values with
    | nil => exact .pure trivial
    | cons v values =>
      obtain ⟨first,rest⟩ := forall_mem_cons.mp each
      rw [map_cons,zip_cons_cons,zip_cons_cons,assignEach_cons,assignEach_cons]
      exact (Simulates.assign first env name).bind fun _ _ _ => ih rest

theorem recursiveLet_erases (inits : ∀ p ∈ form.bindings, Core p.init) (body : Core form.body) :
    Erased c d a b (recursiveLet eval form a) (recursiveLet eval' form.unstaged b) := by
  refine Simulates.level.bind fun l m same => ?_
  rw [same.1,form.unstaged_names]
  have empty : ∀ entry ∈ form.names.map fun name => (name,Value.nil),
      entry.2.IsCore KeepsCall := by simp [Value.IsCore]
  have entries : clearedEntries (form.names.map fun name => (name,nil)) =
      form.names.map fun name => (name,Value.nil) := by simp [clearedEntries,Value.cleared]
  have grows := Simulates.extendAll (c := c) (d := d) (a := a) (b := b) empty l.env
  rw [entries] at grows
  refine grows.bind fun env _ same => ?_
  subst same
  refine .scope env fun i j => ?_
  have parts : ∀ e ∈ form.bindings.map Binding.init, Core e := by simpa using inits
  have inits' : form.unstaged.bindings.map Binding.init =
      (form.bindings.map Binding.init).map unstaged := by simp [LetForm.unstaged]
  rw [inits']
  refine (each_erases erases parts).bind fun values _ cleared => ?_
  obtain ⟨rfl,each⟩ := cleared
  obtain ⟨plain,plain'⟩ := any_isCode_eq_false each
  rw [plain,plain']
  exact (assignEach_erases each env).bind fun _ _ _ => erases i j i j _ body

theorem set_erases {x : String} {value : Value} (part : Core value) :
    Erased c d a b (setForm eval a [.sym x,value]) (setForm eval' b [.sym x,value.unstaged]) := by
  rw [setForm_step,setForm_step]
  refine (erases c d a b _ part).bind fun v _ cleared => ?_
  obtain ⟨rfl,core⟩ := cleared
  refine Simulates.level.bind fun l m same => ?_
  rw [same.1]
  refine (Simulates.value? l.env x).bind fun old new found => ?_
  cases old with
  | none => exact .fault
  | some old =>
    obtain ⟨rfl,core'⟩ := found old rfl
    show Erased c d a b (store l.env x old v) (store l.env x old.cleared v.cleared)
    unfold store
    rw [core.code?_eq_none.1,core.code?_eq_none.2,core'.code?_eq_none.1,core'.code?_eq_none.2]
    exact (Simulates.assign core l.env x).bind fun _ _ _ => .pure ⟨rfl,core⟩

omit erases in
theorem lambda_erases {params body : Value} (core : Core body) :
    Erased c d a b (lambdaForm a [params,body]) (lambdaForm b [params,body.unstaged]) := by
  unfold lambdaForm
  show Erased c d a b (ofResult (.ok (params,body)) >>= _) (ofResult (.ok (params,body.unstaged)) >>= _)
  rw [ofResult_ok_bind,ofResult_ok_bind]
  dsimp only
  split
  · exact .fault
  · next items _ =>
    cases Eval.params [] items with
    | error e => exact .result fun _ ok => (nomatch ok)
    | ok names =>
      rw [ofResult_ok_bind,ofResult_ok_bind]
      refine Simulates.fresh.bind fun id _ same => ?_
      subst same
      refine Simulates.level.bind fun l m same => ?_
      rw [same.1]
      exact .pure ⟨rfl,core⟩

variable {operand : Value}

variable (core : Core operand)

include core

theorem lift_erases : Erased c d a b (liftForm eval a [operand]) (eval' b operand.unstaged) := by
  intro s t s' v clears faces fits fits' ran
  obtain ⟨_,only,evaluating⟩ := ran.bind_result
  cases only
  obtain ⟨u,mid,evaluated,deciding⟩ := evaluating.bind
  obtain ⟨w,t',ran',clears,faces,rest⟩ := erases c d a b _ core _ _ _ _ clears faces fits fits' evaluated
  have deciding := deciding.bind_level
  rw [faces.off] at deciding
  obtain ⟨rfl,rfl⟩ := deciding.pure
  exact ⟨w,t',ran',clears,faces,rest⟩

theorem freeze_erases : Erased c d a b (freezeForm eval a [operand]) (freezeForm eval' b [operand.unstaged]) := by
  refine (erases c d a b _ core).bind fun v _ cleared => ?_
  obtain ⟨rfl,core⟩ := cleared
  cases v with
  | code => exact core.elim
  | _ => exact .pure ⟨rfl,core⟩

theorem run_yields {v : Value} {s t s' : Store} (clears : s.Clears t) (aligned : Aligned a b s t)
    (ran : Ran (runForm eval a [operand]) s v s') :
    ∃ w t', Ran (eval' b operand.unstaged) t w t' ∧ s'.Clears t' ∧ s.Beyond s.levels.size s' ∧
      t.Beyond t.levels.size t' ∧ ClearedTo v w := by
  obtain ⟨_,only,opening⟩ := ran.bind_result
  cases only
  obtain ⟨inner,mid,opened,setting⟩ := opening.bind_level.bind
  obtain ⟨rfl,made⟩ := opened.scope
  obtain ⟨_,start,set,evaluating⟩ := setting.bind
  have inside : s.levels.size < mid.levels.size := by simp [made]
  have next : start.next = s.next := by rw [Ran.modified set,made]
  obtain ⟨levels,count,slots⟩ := Ran.updateLevel inside set
  have here : start.levelAt s.levels.size = { (s.levelAt a).scope (s.levelAt a).env with staging := false } := by
    rw [levels,if_pos rfl,made,s.levelAt_push,if_pos rfl]
  have opened : s.Beyond s.levels.size start := by
    have pushed := Beyond.push s ((s.levelAt a).scope (s.levelAt a).env)
    rw [← made] at pushed
    refine ⟨count ▸ pushed.more,fun i below => ?_⟩
    rw [levels,if_neg (by omega),pushed.same i below]
  have clears : start.Clears t := ⟨by rw [slots,made]; exact clears.slots,clears.next.trans next.symm⟩
  have faces : Faces s.levels.size b start t := by
    refine ⟨⟨count ▸ inside,aligned.inside',fun rule => ?_,aligned.native',?_⟩,?_⟩
    · rw [here]
      exact aligned.native rule
    · rw [here]
      exact aligned.env
    · rw [here]
  obtain ⟨w,t',ran',clears,_,left,right,related⟩ := erases s.levels.size t.levels.size _ b _ core
    _ _ _ _ clears faces opened.more le_rfl evaluating
  exact ⟨w,t',ran',clears,opened.trans left,right,related⟩

theorem run_erases : Erased c d a b (runForm eval a [operand]) (eval' b operand.unstaged) := by
  intro s t s' v clears faces fits fits' ran
  obtain ⟨w,t',ran',clears,left,right,related⟩ := run_yields erases core clears faces.toAligned ran
  exact ⟨w,t',ran',clears,faces.beyond left right faces.inside faces.inside',left.mono fits,
    right.mono fits',related⟩

end Rules

section Forms

variable {eval eval' reflected reflected' : Evaluator} {e e' : Value} {c d a b : Nat}

variable {parts rest : List Value} {keyword : String} {kind : LetKind} {rule : List Value → Eval Value}

theorem LetForm.ofValue_parts (items : IsForm kind.keyword parts e) :
    LetForm.ofValue e = LetForm.ofParts kind parts := by
  obtain ⟨cell,tail,rfl,listed⟩ := formItems_cons items
  cases kind <;> simp only [LetForm.ofValue,LetKind.keyword,Value.headSymbol?,Value.symbol?,
    Value.head?,Value.tail?,bind_some,listed]

theorem Value.head_of_items {name : String}
    (items : e.formItems? = some (first :: rest)) (named : e.headSymbol? = some name) :
    first = .sym name := by
  obtain ⟨_,_,rfl,_⟩ := formItems_cons items
  cases first with
  | sym other => exact congrArg sym (some.inj named)
  | _ => cases named

theorem step_erases {first' : Value} {rest' : List Value} (items : e.formItems? = some (first :: rest))
    (items' : e'.formItems? = some (first' :: rest'))
    (simulates : Erased c d a b (evalForm eval reflected a e) (evalForm eval' reflected' b e')) :
    Erased c d a b (evalStep eval reflected a e) (evalStep eval' reflected' b e') := by
  obtain ⟨cell,tail,rfl,_⟩ := formItems_cons items
  obtain ⟨cell',tail',rfl,_⟩ := formItems_cons items'
  exact simulates.adapt

theorem fixed_erases {parts' : List Value} (items : IsForm keyword parts e)
    (items' : IsForm keyword parts' e') {rule' : List Value → Eval Value}
    (known : fixedRule? eval a keyword = some rule)
    (known' : fixedRule? eval' b keyword = some rule')
    (simulates : Erased c d a b (rule parts) (rule' parts')) :
    Erased c d a b (evalStep eval reflected a e) (evalStep eval' reflected' b e') := by
  refine step_erases items items' ?_
  rw [evalForm_fixed _ _ _ items.head known,evalForm_fixed _ _ _ items'.head known',items.parts,items'.parts]
  exact simulates

theorem omitted_erases {y : Eval Value} (items : IsForm keyword parts e)
    (known : fixedRule? eval a keyword = some rule)
    (simulates : Erased c d a b (rule parts) y) :
    Erased c d a b (evalStep eval reflected a e) y := by
  have form : Erased c d a b (evalForm eval reflected a e) y := by
    rw [evalForm_fixed _ _ _ items.head known,items.parts]
    exact simulates
  obtain ⟨cell,tail,rfl,_⟩ := formItems_cons items
  intro s t s' v clears faces fits fits' ran
  exact form _ _ _ _ clears faces fits fits' ran.adapt

variable (erases : eval.Erases eval')

include erases

theorem choice_erases (onFalse : Option Value)
    (items : IsForm "if" (test :: onTrue :: onFalse.toList) e)
    (tests : Core test) (first : Core onTrue)
    (second : ∀ p ∈ onFalse, Core p) :
    Erased c d a b (evalStep eval reflected a e) (evalStep eval' reflected' b e.unstaged) := by
  have items' := unstaged_parts items (by decide)
  refine step_erases items items' ?_
  rw [evalForm_choice _ _ _ items.head,evalForm_choice _ _ _ items'.head]
  refine .dispatch ?_ _ _ _ _ _
  unfold ifRule
  rw [items.parts,items'.parts,ofResult_ok_bind,ofResult_ok_bind]
  cases onFalse with
  | none | some part => exact conditional_erases erases tests first second

theorem binding_erases (items : IsForm kind.keyword parts e) (read : LetForm.ofParts kind parts = .ok form)
    (inits : ∀ p ∈ form.bindings, Core p.init) (body : Core form.body) :
    Erased c d a b (evalStep eval reflected a e) (evalStep eval' reflected' b e.unstaged) := by
  obtain ⟨parts',items',read'⟩ := LetForm.isForm_unstaged items read
  cases kind with
  | plain =>
    refine step_erases items items' ?_
    rw [evalForm_let _ _ _ items.head,evalForm_let _ _ _ items'.head]
    refine .dispatch ?_ _ _ _ _ _
    unfold letRule
    rw [LetForm.ofValue_parts items,LetForm.ofValue_parts items',read,read',ofResult_ok_bind,ofResult_ok_bind]
    exact plainLet_erases erases inits body
  | recursive =>
    refine fixed_erases items items' rfl rfl ?_
    unfold letrecForm
    rw [read,read',ofResult_ok_bind,ofResult_ok_bind]
    exact recursiveLet_erases erases inits body

theorem application_erases (items : e.formItems? = some (operator :: operands))
    (other : ∀ name, operator = .sym name → isKeyword name = false) (kept : operator.KeepsCall)
    (first : Core operator) (parts : ∀ p ∈ operands, Core p) :
    Erased c d a b (evalStep eval reflected a e) (evalStep eval' reflected' b e.unstaged) := by
  have keywords : ∀ name ∈ stagedKeywords, isKeyword name = true := by decide
  have items' := unstaged_items items fun name same member => by
    cases (keywords name member).symm.trans (other name same)
  refine step_erases items items' ?_
  rw [evalForm_other _ _ _ fun name named => other name (head_of_items items named),
    evalForm_other _ _ _ fun name named => kept name (head_of_items items' named)]
  exact .dispatch (call_erases erases items items' first parts) _ _ _ _ _

/-- One step without staging does what the step does. The forms that are left out take one step
less, which more room makes up for. -/
theorem evalStep_erases (below : eval'.Below (evalStep eval' reflected')) :
    (evalStep eval reflected).Erases (evalStep eval' reflected') := by
  intro c d a b e core
  cases core with
  | int n | nil => exact .dispatch (.pure ⟨rfl,trivial⟩) _ _ _ _ _
  | name x => exact .dispatch (variable_erases x) _ _ _ _ _
  | quote items data =>
    rw [unstaged_quote items]
    refine fixed_erases items items rfl rfl ?_
    exact .pure ⟨(cleared_datum data).symm,isCore_of_datum data⟩
  | lambda items part =>
    exact fixed_erases items (unstaged_rest (.inl rfl) items) rfl rfl (lambda_erases part)
  | binding items read inits body => exact binding_erases erases items read inits body
  | @choice _ _ _ onFalse items tests first second =>
    refine choice_erases erases (some onFalse) items tests first fun p same => ?_
    cases same
    exact second
  | option items tests first =>
    exact choice_erases erases none items tests first fun _ none => (nomatch none)
  | assign items part =>
    exact fixed_erases items (unstaged_rest (.inr rfl) items) rfl rfl (set_erases erases part)
  | wrapper known items part =>
    rcases known with rfl | rfl | rfl
    · rw [unstaged_operand (.inl rfl) items]
      exact omitted_erases items rfl ((lift_erases erases part).below (below b _))
    · exact fixed_erases items (unstaged_parts items (by decide)) rfl rfl (freeze_erases erases part)
    · rw [unstaged_operand (.inr rfl) items]
      exact omitted_erases items rfl ((run_erases erases part).below (below b _))
  | call items other admitted first parts =>
    exact application_erases erases items other admitted first parts

end Forms

theorem eval_erases (fuel : Nat) : (eval fuel).Erases (eval fuel) := by
  have deep : tooDeep.Erases tooDeep := by
    intro c d a b e _
    exact .fault
  induction fuel with
  | zero => exact deep
  | succ fuel ih =>
    have below := Evaluator.eval_below_succ fuel
    rw [eval_succ] at below ⊢
    exact evalStep_erases ih below

theorem Ran.running {fuel a : Nat} {e r v : Value} {s s' : Store} (items : IsForm "run" [e] r)
    (ran : Ran (eval fuel a r) s v s') :
    ∃ less ≤ fuel, Ran (runForm (eval less) a [e]) s v s' := by
  have form {less : Nat} {reflected : Evaluator} (ran : Ran (evalStep (eval less) reflected a r) s v s') :
      Ran (runForm (eval less) a [e]) s v s' := by
    have ran : Ran (evalForm (eval less) reflected a r) s v s' := by
      obtain ⟨_,_,rfl,_⟩ := formItems_cons items
      exact ran.adapt
    rwa [evalForm_fixed _ _ _ items.head rfl,items.parts,ofResult_ok_bind] at ran
  cases fuel with
  | zero => exact ran.fault.elim
  | succ fuel =>
    rw [eval_succ] at ran
    exact ⟨fuel,Nat.le_succ _,form ran⟩

theorem Store.addRoot_clears {s : Store} (fresh : s.slots = #[]) : s.addRoot.2.Clears s.addRoot.2 := by
  have none : Slots.Clears #[] #[] := ⟨by simp,by simp⟩
  have core : ∀ entry ∈ all.map fun op => (op.name,prim op), entry.2.IsCore KeepsCall := by simp [IsCore]
  have named : clearedEntries (all.map fun op => (op.name,prim op)) = all.map fun op => (op.name,prim op) := rfl
  have primitives := (none.extendAll core []).2
  rw [named] at primitives
  refine ⟨?_,rfl⟩
  show Slots.Clears (Env.primitives s.slots).2 (Env.primitives s.slots).2
  rw [fresh]
  exact primitives

/-- At a new root, an expression that is run does not yield a fragment, and without `lift` and `run`
it yields the same, up to these forms in the bodies of procedures. -/
theorem run_erases_staging {s : Store} (fresh : s.slots = #[]) {e r : Value}
    (core : CoreExpr KeepsCall e) (running : IsForm "run" [e] r) {v : Value} {s' : Store}
    (ran : Ran (evaluate s.addRoot.1 r) s.addRoot.2 v s') :
    v.isCode = false ∧ ∃ t', Ran (evaluate s.addRoot.1 e.unstaged) s.addRoot.2 v.cleared t' := by
  obtain ⟨less,fewer,ran⟩ := Ran.running running ran
  have standing := s.addRoot_standing
  have aligned : Aligned s.addRoot.1 s.addRoot.1 s.addRoot.2 s.addRoot.2 :=
    ⟨standing.inside,standing.inside,standing.native,standing.native,rfl⟩
  obtain ⟨w,t',ran',_,_,_,rfl,value⟩ :=
    run_yields (eval_erases less) core (Store.addRoot_clears fresh) aligned ran
  exact ⟨value.not_code,t',Evaluator.eval_below fewer _ _ _ _ _ ran'⟩

/-- `(let ((f (lambda (x) (run (+ x (lift 1)))))) (cons (f (lift 2)) f))` -/
def stagedIncrement : Value :=
  .ofParts [.sym "let",.ofParts [.ofParts [.sym "f",.ofParts [.sym "lambda",.ofParts [.sym "x"],
      .ofParts [.sym "run",.ofParts [.sym "+",.sym "x",.ofParts [.sym "lift",.int 1]]]]]],
    .ofParts [.sym "cons",.ofParts [.sym "f",.ofParts [.sym "lift",.int 2]],.sym "f"]]

/-- The value is a pair of `3` and a procedure, which ends up with the body `(+ x 1)`. -/
theorem stagedIncrement_erases :
    ∃ v s' t',
      Ran (evaluate 0 (.ofParts [.sym "run",stagedIncrement])) ({} : Store).addRoot.2 v s' ∧
      v.head?.bind Value.tree? = some (.int 3) ∧
      v.cleared.tail?.map Value.detailed = some "Closure(params=[\"x\"], body=(+ x 1))" ∧
      v.isCode = false ∧
      Ran (evaluate 0 stagedIncrement.unstaged) ({} : Store).addRoot.2 v.cleared t' := by
  have name (x : String) (other : isKeyword x = false) (name : String)
      (same : Value.sym x = .sym name) : isKeyword name = false := by
    cases same
    exact other
  have core : CoreExpr KeepsCall stagedIncrement := by
    have items : IsForm LetKind.plain.keyword _ stagedIncrement := rfl
    refine .binding items rfl (fun p member => ?_) ?_
    · cases mem_singleton.mp member
      refine .lambda rfl (.wrapper (.inr (.inr rfl)) rfl ?_)
      refine .call rfl (name "+" rfl) (name "+" rfl) (.name "+") fun p member => ?_
      rcases mem_pair.mp member with rfl | rfl
      · exact .name "x"
      · exact .wrapper (.inl rfl) rfl (.int 1)
    · refine .call rfl (name "cons" rfl) (name "cons" rfl) (.name "cons") fun p member => ?_
      rcases mem_pair.mp member with rfl | rfl
      · refine .call rfl (name "f" rfl) (name "f" rfl) (.name "f") fun p member => ?_
        cases mem_singleton.mp member
        exact .wrapper (.inl rfl) rfl (.int 2)
      · exact .name "f"
  have run : ((evaluate 0 (.ofParts [.sym "run",stagedIncrement])).run.run
      ({} : Store).addRoot.2).1.toOption.bind (fun v => some (v.head?.bind Value.tree?,
        v.cleared.tail?.map Value.detailed)) =
      some (some (.int 3),some "Closure(params=[\"x\"], body=(+ x 1))") := by decide +kernel
  obtain ⟨v,s',ran,shown⟩ := Ran.observed run
  obtain ⟨head,tail⟩ := Prod.mk.inj (Option.some.inj shown)
  have running : IsForm "run" [stagedIncrement] (.ofParts [.sym "run",stagedIncrement]) := rfl
  obtain ⟨plain,t',erased⟩ := run_erases_staging (s := {}) rfl core running ran
  exact ⟨v,s',t',ran,head,tail,plain,erased⟩

/-- `((lambda (quote) ((lift quote) 5)) -)` -/
def liftedKeyword : Value :=
  .ofParts [.ofParts [.sym "lambda",.ofParts [.sym "quote"],
    .ofParts [.ofParts [.sym "lift",.sym "quote"],.int 5]],.sym "-"]

/-- An operator that gives way to a keyword makes the call another form: `(quote 5)` yields `5`, and
the call to the procedure of that name `-5`. -/
theorem liftedKeyword_changes :
    CoreExpr (fun _ => True) liftedKeyword ∧
      ∃ v w s' t',
        Ran (evaluate 0 (.ofParts [.sym "run",liftedKeyword])) ({} : Store).addRoot.2 v s' ∧
        Ran (evaluate 0 liftedKeyword.unstaged) ({} : Store).addRoot.2 w t' ∧
        v.cleared.tree? = some (.int (-5)) ∧ w.tree? = some (.int 5) ∧ w ≠ v.cleared := by
  refine ⟨.call rfl nofun trivial (.lambda rfl (.call rfl nofun trivial
    (.wrapper (.inl rfl) rfl (.name "quote")) fun p member => ?_)) fun p member => ?_,?_⟩
  · cases mem_singleton.mp member
    exact .int 5
  · cases mem_singleton.mp member
    exact .name "-"
  have run : ((evaluate 0 (.ofParts [.sym "run",liftedKeyword])).run.run
      ({} : Store).addRoot.2).1.toOption.bind (fun v => v.cleared.tree?) = some (.int (-5)) := by
    decide +kernel
  have erased : ((evaluate 0 liftedKeyword.unstaged).run.run ({} : Store).addRoot.2).1.toOption.bind
      Value.tree? = some (.int 5) := by decide +kernel
  obtain ⟨v,s',ran,tree⟩ := Ran.observed run
  obtain ⟨w,t',ran',tree'⟩ := Ran.observed erased
  refine ⟨v,w,s',t',ran,ran',tree,tree',?_⟩
  rintro rfl
  cases tree.symm.trans tree'

end StagedLisp
