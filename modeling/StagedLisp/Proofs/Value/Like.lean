import Mathlib.Data.List.Forall2
import StagedLisp.Primitive.Apply
import StagedLisp.Release.Block

/-! Values that differ only in the environments of procedures and in the numbers of levels. Nothing but
a call or the use of a level can tell such values apart. -/
namespace StagedLisp

open Primitive Value

structure Error.Alike (e f : Error) : Prop where
  kind : e.kind = f.kind
  detail : e.detail = f.detail

/-- Related results, or errors of one kind and wording. -/
inductive Result.Alike {α : Type} (related : α → α → Prop) : Result α → Result α → Prop where
  | ok {a b} : related a b → Alike related (.ok a) (.ok b)
  | error {e f} : e.Alike f → Alike related (.error e) (.error f)

namespace Error.Alike

variable {e f : Error}

theorem refl (e : Error) : e.Alike e := ⟨rfl,rfl⟩

theorem through (alike : e.Alike f) (place : Place) : (e.through place).Alike (f.through place) where
  kind := alike.kind
  detail := by
    have extended (e : Error) : (e.through place).detail = e.detail ++ place.text := by
      simp [Error.detail,Error.through,String.append_assoc]
    rw [extended,extended,alike.detail]

theorem whileEvaluating (alike : e.Alike f) (form : Value) :
    (e.whileEvaluating form).Alike (f.whileEvaluating form) := by
  unfold Error.whileEvaluating
  rw [alike.kind,alike.detail]
  split
  · exact alike.through _
  · exact alike

theorem leaving (alike : e.Alike f) (body : Value) : (e.leaving body).Alike (f.leaving body) := by
  unfold Error.leaving
  rw [alike.kind]
  split
  · exact alike.through _
  · exact alike

theorem fault {cause cause' : Fault} (kind : cause.kind = cause'.kind)
    (detail : cause.detail = cause'.detail) : Error.Alike ⟨cause,[]⟩ ⟨cause',[]⟩ :=
  ⟨kind,by simp [Error.detail,detail]⟩

end Error.Alike

namespace Result.Alike

variable {α β : Type} {R : α → α → Prop} {Q : β → β → Prop}

theorem fail {cause cause' : Fault} (kind : cause.kind = cause'.kind) (detail : cause.detail = cause'.detail) :
    Result.Alike R (StagedLisp.fail cause) (StagedLisp.fail cause') :=
  .error (.fault kind detail)

theorem refl (related : ∀ a, R a a) (result : Result α) : Result.Alike R result result := by
  cases result with
  | ok => exact .ok (related _)
  | error => exact .error (.refl _)

theorem same (result : Result α) : Result.Alike Eq result result := .refl (fun _ => rfl) result

variable {r r' : Result α}

@[elab_as_elim]
theorem elim {motive : Result α → Result α → Prop} (alike : Result.Alike Eq r r') (ok : ∀ a, motive (.ok a) (.ok a))
    (error : ∀ e f : Error, e.Alike f → motive (.error e) (.error f)) : motive r r' := by
  cases alike with
  | ok same => exact same ▸ ok _
  | error here => exact error _ _ here

theorem mono {R' : α → α → Prop} (alike : Result.Alike R r r') (weaker : ∀ a b, R a b → R' a b) :
    Result.Alike R' r r' := by
  cases alike with
  | ok here => exact .ok (weaker _ _ here)
  | error here => exact .error here

theorem mapError {f : Error → Error} (alike : Result.Alike R r r')
    (keeps : ∀ e e', Error.Alike e e' → (f e).Alike (f e')) :
    Result.Alike R (Except.mapError f r) (Except.mapError f r') := by
  cases alike with
  | ok here => exact .ok here
  | error here => exact .error (keeps _ _ here)

theorem map {f g : α → β} (alike : Result.Alike R r r') (related : ∀ a b, R a b → Q (f a) (g b)) :
    Result.Alike Q (r.map f) (r'.map g) := by
  cases alike with
  | ok here => exact .ok (related _ _ here)
  | error here => exact .error here

end Result.Alike

/-- Equal values, apart from environments and levels that are related. The body of a procedure is one
expression, and holds nothing that is not related to itself. -/
inductive Value.Like (E : Value → Env → Env → Prop) (L : Nat → Nat → Prop) : Value → Value → Prop where
  | int (n : Int64) : Like E L (.int n) (.int n)
  | sym (name : String) : Like E L (.sym name) (.sym name)
  | nil : Like E L .nil .nil
  | pair (cell : Nat) {head head' tail tail'} : Like E L head head' → Like E L tail tail' →
      Like E L (.pair cell head tail) (.pair cell head' tail')
  | prim (op : Primitive) : Like E L (.prim op) (.prim op)
  | closure (id : Nat) (params : List String) {body env env'} : Like E L body body → E body env env' →
      Like E L (.closure id params body env) (.closure id params body env')
  | code (fragment : Code) : Like E L (.code fragment) (.code fragment)
  | level {a b} : L a b → Like E L (.level a) (.level b)

variable {E : Value → Env → Env → Prop} {L : Nat → Nat → Prop}

/-- Related numbers are equal on one side exactly if they are on the other. -/
def OneToOne (L : Nat → Nat → Prop) : Prop :=
  ∀ ⦃a b a' b'⦄, L a b → L a' b' → (a = a' ↔ b = b')

namespace Value.Like

variable {v w : Value}

theorem refl (envs : ∀ body env, E body env env) (levels : ∀ i, L i i) (v : Value) : v.Like E L v := by
  induction v with
  | pair cell _ _ ihHead ihTail => exact .pair cell ihHead ihTail
  | closure id params body env ih => exact .closure id params ih (envs body env)
  | level id => exact .level (levels id)
  | _ => constructor

theorem mono {E' : Value → Env → Env → Prop} {L' : Nat → Nat → Prop} (like : v.Like E L w)
    (envs : ∀ body env env', E body env env' → E' body env env')
    (levels : ∀ a b, L a b → L' a b) : v.Like E' L' w := by
  induction like with
  | pair cell _ _ ihHead ihTail => exact .pair cell ihHead ihTail
  | closure id params _ agree ih => exact .closure id params ih (envs _ _ _ agree)
  | level here => exact .level (levels _ _ here)
  | _ => constructor

theorem texts (like : v.Like E L w) : v.text = w.text ∧ v.tailText = w.tailText := by
  induction like with
  | pair _ _ _ ihHead ihTail => simp [text,tailText,ihHead.1,ihTail.2]
  | closure | level => simp [text,tailText]
  | _ => exact ⟨rfl,rfl⟩

theorem text (like : v.Like E L w) : v.text = w.text := like.texts.1

theorem isCode (like : v.Like E L w) : v.isCode = w.isCode := by cases like <;> rfl

theorem code? (like : v.Like E L w) : v.code? = w.code? := by cases like <;> rfl

theorem truthy (like : v.Like E L w) : v.truthy = w.truthy := by cases like <;> rfl

theorem canLift (like : v.Like E L w) : v.canLift = w.canLift := by
  induction like with
  | pair _ _ _ ihHead ihTail => simp [Value.canLift,ihHead,ihTail]
  | _ => rfl

theorem isMaterial (like : v.Like E L w) : v.isMaterial = w.isMaterial := by
  cases like with
  | pair cell head tail => exact (pair cell head tail).canLift
  | _ => rfl

theorem lift (like : v.Like E L w) : Result.Alike Eq v.lift w.lift := by
  induction like with
  | pair cell _ _ ihHead ihTail =>
    simp only [Value.lift]
    refine ihHead.elim (fun _ => ?_) fun _ _ => .error
    exact ihTail.elim (fun _ => .ok rfl) fun _ _ => .error
  | level => exact .fail rfl rfl
  | _ => exact .same _

theorem same {v' w' : Value} (like : v.Like E L w) (levels : OneToOne L)
    (like' : v'.Like E L w') : v.same v' = w.same w' := by
  induction like generalizing v' w' with
  | pair _ _ _ ihHead ihTail =>
    cases like' with
    | pair _ head tail => simp [Value.same,ihHead head,ihTail tail]
    | _ => rfl
  | level here =>
    cases like' with
    | level there =>
      rw [Value.same,Value.same,Bool.eq_iff_iff,beq_iff_eq,beq_iff_eq]
      exact levels here there
    | _ => rfl
  | _ => cases like' <;> rfl

end Value.Like

/-- A relation of values that primitives cannot tell apart, unless they are staged. -/
structure Value.Congruence (R : Value → Value → Prop) : Prop where
  kind : ∀ {v w}, R v w → v.kind = w.kind
  text : ∀ {v w}, R v w → v.text = w.text
  int? : ∀ {v w}, R v w → v.int? = w.int?
  truthy : ∀ {v w}, R v w → v.truthy = w.truthy
  isNil : ∀ {v w}, R v w → v.isNil = w.isNil
  cell? : ∀ {v w}, R v w → v.cell? = w.cell?
  head? : ∀ {v w}, R v w → Option.Rel R v.head? w.head?
  tail? : ∀ {v w}, R v w → Option.Rel R v.tail? w.tail?
  identical : ∀ {v w v' w'}, R v w → R v' w' → identical v v' = identical w w'
  int : ∀ n, R (.int n) (.int n)
  nil : R .nil .nil
  pair : ∀ {head head' tail tail'} cell, R head head' → R tail tail' →
    R (.pair cell head tail) (.pair cell head' tail')

theorem Primitive.reduce_car (v : Value) (next : Nat) :
    car.reduce [v] next = v.head?.elim (fail (.notPair car v)) fun a => .ok (a,next) := by
  cases v <;> rfl

theorem Primitive.reduce_cdr (v : Value) (next : Nat) :
    cdr.reduce [v] next = v.tail?.elim (fail (.notPair cdr v)) fun a => .ok (a,next) := by
  cases v <;> rfl

def Counted (R : Value → Value → Prop) (a b : Value × Nat) : Prop := R a.1 b.1 ∧ a.2 = b.2

open List (Forall₂)

namespace Value.Congruence

variable {R : Value → Value → Prop} (same : Congruence R) {args args' : List Value} {v v' w w' : Value}

include same

theorem operand (op : Primitive) (like : R v w) : Result.Alike Eq (op.operand v) (op.operand w) := by
  unfold Primitive.operand
  rw [same.int? like]
  cases w.int? with
  | some n => exact .ok rfl
  | none =>
    refine Result.Alike.fail rfl ?_
    unfold Fault.detail
    dsimp only
    rw [same.kind like,same.text like]

theorem foldInts (op : Primitive) (operation : Overflow) (f : Int → Int → Int) (acc : Int64)
    (each : Forall₂ R args args') :
    Result.Alike Eq (op.foldInts operation f acc args) (op.foldInts operation f acc args') := by
  induction each generalizing acc with
  | nil => exact .ok rfl
  | cons first _ ih =>
    simp only [Primitive.foldInts]
    refine (same.operand op first).elim (fun n => ?_) fun _ _ => .error
    dsimp only
    cases exactly operation (f acc.toInt n.toInt) with
    | error e => exact .error (.refl e)
    | ok acc => exact ih acc

theorem foldFirst (op : Primitive) (operation : Overflow) (f : Int → Int → Int) (each : Forall₂ R args args') :
    Result.Alike Eq (op.foldFirst operation f args) (op.foldFirst operation f args') := by
  cases each with
  | nil => exact .same _
  | cons first rest =>
    simp only [foldFirst]
    exact (same.operand op first).elim (fun acc => same.foldInts op operation f acc rest) fun _ _ => .error

theorem sum (each : Forall₂ R args args') : Result.Alike Eq (sum args) (sum args') := by
  cases each with
  | nil => exact .same _
  | cons first rest => exact same.foldFirst _ _ _ (.cons first rest)

theorem difference (each : Forall₂ R args args') : Result.Alike Eq (difference args) (difference args') := by
  rcases each with _ | ⟨first,_ | ⟨second,rest⟩⟩
  · exact .same _
  · simp only [difference]
    exact (same.operand .sub first).elim (fun _ => .same _) fun _ _ => .error
  · exact same.foldFirst _ _ _ (.cons first (.cons second rest))

theorem divide (op : Primitive) (f : Int → Int → Int) (first : R v w) (second : R v' w') :
    Result.Alike Eq (op.divide f v v') (op.divide f w w') := by
  unfold Primitive.divide
  refine (same.operand op first).elim (fun _ => ?_) fun _ _ => .error
  exact (same.operand op second).elim (fun _ => .same _) fun _ _ => .error

theorem compare (op : Primitive) (f : Int → Int → Bool) (first : R v w) (second : R v' w') :
    Result.Alike Eq (op.compare f v v') (op.compare f w w') := by
  unfold Primitive.compare
  refine (same.operand op first).elim (fun _ => ?_) fun _ _ => .error
  exact (same.operand op second).elim (fun _ => .same _) fun _ _ => .error

theorem ofItems (each : Forall₂ R args args') (next : Nat) :
    Counted R (ofItems args next) (ofItems args' next) := by
  induction each with
  | nil => exact ⟨same.nil,rfl⟩
  | cons first _ ih =>
    obtain ⟨tail,next⟩ := ih
    simp only [Value.ofItems,Counted,next]
    exact ⟨same.pair _ first tail,trivial⟩

theorem reduce (op : Primitive) (next : Nat) (each : Forall₂ R args args') :
    Result.Alike (Counted R) (op.reduce args next) (op.reduce args' next) := by
  have int {r r' : Result Int64} (alike : Result.Alike Eq r r') :
      Result.Alike (Counted R) (r.map fun n => (.int n,next)) (r'.map fun n => (.int n,next)) :=
    alike.map fun _ _ equal => equal ▸ ⟨same.int _,rfl⟩
  have bool {r r' : Result Bool} (alike : Result.Alike Eq r r') :
      Result.Alike (Counted R) (r.map fun b => (boolean b,next)) (r'.map fun b => (boolean b,next)) :=
    alike.map fun _ _ equal => equal ▸ ⟨same.int _,rfl⟩
  have answer {b b' : Bool} (equal : b = b') :
      Result.Alike (Counted R) (.ok (boolean b,next)) (.ok (boolean b',next)) :=
    equal ▸ .ok ⟨same.int _,rfl⟩
  have part {v w : Value} (like : R v w) {x y : Option Value} (parts : Option.Rel R x y) :
      Result.Alike (Counted R) (x.elim (fail (.notPair op v)) fun a => .ok (a,next))
        (y.elim (fail (.notPair op w)) fun a => .ok (a,next)) := by
    cases parts with
    | some here => exact .ok ⟨here,rfl⟩
    | none =>
      refine .fail rfl ?_
      unfold Fault.detail
      dsimp only
      rw [same.text like]
  rcases each with _ | ⟨first,_ | ⟨second,_ | ⟨third,rest⟩⟩⟩
  · have each : Forall₂ R [] [] := .nil
    cases op with
    | add => exact int (same.sum each)
    | list => exact .ok ⟨same.nil,rfl⟩
    | _ => exact .error (.refl _)
  · have each : Forall₂ R [_] [_] := .cons first .nil
    cases op with
    | add => exact int (same.sum each)
    | sub => exact int (same.difference each)
    | mul => exact int (same.foldFirst _ _ _ each)
    | list => exact .ok (same.ofItems each next)
    | not => exact answer (congrArg _ (same.truthy first))
    | isNull => exact answer (same.isNil first)
    | isPair => exact answer (congrArg _ (same.cell? first))
    | car =>
      rw [reduce_car,reduce_car]
      exact part first (same.head? first)
    | cdr =>
      rw [reduce_cdr,reduce_cdr]
      exact part first (same.tail? first)
    | _ => exact .error (.refl _)
  · have each : Forall₂ R [_,_] [_,_] := .cons first (.cons second .nil)
    cases op with
    | add => exact int (same.sum each)
    | sub => exact int (same.difference each)
    | mul => exact int (same.foldFirst _ _ _ each)
    | list => exact .ok (same.ofItems each next)
    | div | mod => exact int (same.divide _ _ first second)
    | lt | gt | le | ge | numEq => exact bool (same.compare _ _ first second)
    | cons => exact .ok ⟨same.pair next first second,rfl⟩
    | eq => exact answer (same.identical first second)
    | _ => exact .error (.refl _)
  · have each := Forall₂.cons first (.cons second (.cons third rest))
    have excess {n n' : Nat} (equal : n = n') : Result.Alike (Counted R)
        (fail (.operandCount op.arity.expected n)) (fail (.operandCount op.arity.expected n')) :=
      equal ▸ .error (.refl _)
    cases op with
    | add => exact int (same.sum each)
    | sub => exact int (same.difference each)
    | mul => exact int (same.foldFirst _ _ _ each)
    | list => exact .ok (same.ofItems each next)
    | _ => exact excess each.length_eq

end Value.Congruence

theorem Value.Like.congruence (levels : OneToOne L) : Congruence (Like E L) where
  kind like := by cases like <;> rfl
  text like := like.text
  int? like := by cases like <;> rfl
  truthy like := like.truthy
  isNil like := by cases like <;> rfl
  cell? like := by cases like <;> rfl
  head? like := by
    cases like with
    | pair _ head _ => exact .some head
    | _ => exact .none
  tail? like := by
    cases like with
    | pair _ _ tail => exact .some tail
    | _ => exact .none
  identical first second := by
    have same := first.same levels second
    cases first with
    | pair => cases second <;> rfl
    | code => rfl
    | _ => exact same
  int := .int
  nil := .nil
  pair cell := .pair cell

namespace Primitive

variable {args args' : List Value}

theorem liftAll_like (each : Forall₂ (Like E L) args args') : Result.Alike Eq (liftAll args) (liftAll args') := by
  induction each with
  | nil => exact .same _
  | cons first _ ih =>
    simp only [liftAll]
    refine first.lift.elim (fun _ => ?_) fun _ _ => .error
    exact ih.elim (fun _ => .ok rfl) fun _ _ => .error

theorem any_isCode_like (each : Forall₂ (Like E L) args args') : args.any isCode = args'.any isCode := by
  induction each with
  | nil => rfl
  | cons first _ ih => simp only [List.any_cons,first.isCode,ih]

theorem apply_like (levels : OneToOne L) (op : Primitive) (next : Nat) (each : Forall₂ (Like E L) args args') :
    Result.Alike (Counted (Like E L)) (op.apply args next) (op.apply args' next) := by
  unfold apply
  rw [each.length_eq,any_isCode_like each]
  split
  · exact .error (.refl _)
  · split
    · refine (liftAll_like each).elim (fun _ => ?_) fun _ _ => .error
      exact (Result.Alike.same _).map fun _ _ same => same ▸ ⟨.code _,rfl⟩
    · exact (Like.congruence levels).reduce op next each

end Primitive

theorem BindingPlan.ofBinding_like (a : Analysis) (options : Options) (b : Binding) {v w : Value}
    (like : v.Like E L w) : ofBinding a options b v = ofBinding a options b w := by
  have lifted : v.lift.toOption = w.lift.toOption := like.lift.elim (fun _ => rfl) fun _ _ _ => rfl
  simp only [ofBinding,like.isMaterial,lifted]

theorem Plans.ofForm_like (form : LetForm) (a : Analysis) (options : Options)
    {values values' : List Value} (each : List.Forall₂ (Like E L) values values') :
    ofForm form values a options = ofForm form values' a options := by
  have plans (bindings : List Binding) :
      (bindings.zip values).map (fun pair => BindingPlan.ofBinding a options pair.1 pair.2) =
        (bindings.zip values').map fun pair => BindingPlan.ofBinding a options pair.1 pair.2 := by
    induction each generalizing bindings with
    | nil => rfl
    | cons first _ ih =>
      cases bindings with
      | nil => rfl
      | cons b rest =>
        simp only [List.zip_cons_cons,List.map_cons,ih rest,BindingPlan.ofBinding_like a options b first]
  unfold ofForm
  rw [plans form.bindings]

end StagedLisp
