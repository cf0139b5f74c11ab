import StagedLisp.Primitive.Apply
import StagedLisp.Proofs.Support.Routine

/-! Staging does not change what a primitive computes: with some of its operands replaced by
fragments that build them, the call becomes a fragment that builds the same result. -/
namespace StagedLisp

open List Support Value Code Int64 Contents Routine
open Support (Contents)

variable {r n : Int64} {first : Code}

namespace Value

def isData : Value → Bool
  | int _ | nil => true
  | pair _ head tail => head.isData && tail.isData
  | _ => false

/-- The contents of data, without the identity of cells. -/
def tree? : Value → Option Contents
  | int n => some (.int n.toInt)
  | nil => some .null
  | pair _ head tail => head.tree?.bind fun a => tail.tree?.map fun b => .pair a b
  | _ => none

/-- The fragment that builds the value, if it can be lifted. -/
def staged (v : Value) : Value :=
  match v.lift with
  | .ok fragment => code fragment
  | .error _ => v

end Value

namespace Code

/-- The fragment is made of `mk_int`, `mk_pair`, `NULL` and calls of one routine. -/
def isOver (helper : String) : Code → Bool
  | null | int .heap _ => true
  | pair none head tail => head.isOver helper && tail.isOver helper
  | call1 routine operand => routine == helper && operand.isOver helper
  | call2 routine left right => routine == helper && left.isOver helper && right.isOver helper
  | _ => false

def object? : Code → Option Contents
  | null => some .null
  | int .heap n => some (.int n.toInt)
  | pair none head tail => head.object?.bind fun a => tail.object?.map fun b => .pair a b
  | call1 routine operand => operand.object?.bind fun o => call? routine [o]
  | call2 routine left right =>
    left.object?.bind fun a => right.object?.bind fun b => call? routine [a,b]
  | _ => none

/-- The fragment builds the object with calls of the routine only. -/
structure Denotes (helper : String) (c : Code) (o : Contents) : Prop where
  calls : c.isOver helper
  object : c.object? = some o

variable {helper : String} {a b : Code} {x y o : Contents}

theorem Denotes.int (n : Int64) : Denotes helper (.int .heap n) (.int n.toInt) := ⟨rfl,rfl⟩

theorem Denotes.null : Denotes helper .null .null := ⟨rfl,rfl⟩

theorem Denotes.pair (first : Denotes helper a x) (second : Denotes helper b y) :
    Denotes helper (.pair none a b) (.pair x y) where
  calls := by simp [isOver,first.calls,second.calls]
  object := by simp [object?,first.object,second.object]

theorem Denotes.call1 (first : Denotes helper a x) (result : call? helper [x] = some o) :
    Denotes helper (.call1 helper a) o where
  calls := by simp [isOver,first.calls]
  object := by simp [object?,first.object,result]

theorem Denotes.call2 (first : Denotes helper a x) (second : Denotes helper b y)
    (result : call? helper [x,y] = some o) : Denotes helper (.call2 helper a b) o where
  calls := by simp [isOver,first.calls,second.calls]
  object := by simp [object?,first.object,second.object,result]

def Builds (helper : String) (c : Code) (v : Value) : Prop :=
  ∃ o, v.tree? = some o ∧ c.Denotes helper o

end Code

theorem Value.lift_data (helper : String) {v : Value} (data : v.isData) :
    ∃ c, v.lift = .ok c ∧ c.Builds helper v := by
  induction v with
  | int n => exact ⟨_,rfl,_,rfl,.int n⟩
  | nil => exact ⟨_,rfl,_,rfl,.null⟩
  | pair cell head tail ihHead ihTail =>
    simp only [isData,Bool.and_eq_true] at data
    obtain ⟨a,liftedA,x,treeA,first⟩ := ihHead data.1
    obtain ⟨b,liftedB,y,treeB,second⟩ := ihTail data.2
    exact ⟨.pair none a b,by simp [lift,liftedA,liftedB],.pair x y,by simp [tree?,treeA,treeB],first.pair second⟩
  | _ => cases data

namespace Primitive

variable {args : List Value} {op : Primitive} {v : Value} {helper : String} {c : Code} {codes : List Code}

theorem liftAll_data (helper : String) (data : ∀ a ∈ args, a.isData) :
    ∃ codes, liftAll args = .ok codes ∧ List.Forall₂ (Builds helper) codes args := by
  induction args with
  | nil => exact ⟨[],rfl,.nil⟩
  | cons a args ih =>
    obtain ⟨c,lifted,builds⟩ := lift_data helper (data a mem_cons_self)
    obtain ⟨codes,all,each⟩ := ih fun b member => data b (.tail _ member)
    exact ⟨c :: codes,by simp [liftAll,lifted,all],.cons builds each⟩

/-- The operands at the chosen positions are staged. -/
def stageAt (chosen : Nat → Bool) (args : List Value) : List Value :=
  args.mapIdx fun i a => if chosen i then a.staged else a

theorem lift_staged (v : Value) : v.staged.lift = v.lift := by
  unfold staged
  split
  · next lifted => rw [lifted]; rfl
  · rfl

theorem liftAll_stageAt (chosen : Nat → Bool) (args : List Value) :
    liftAll (stageAt chosen args) = liftAll args := by
  induction args generalizing chosen with
  | nil => rfl
  | cons a args ih =>
    have rest := ih fun i => chosen (i + 1)
    have first : (if chosen 0 then a.staged else a).lift = a.lift := by
      split
      · exact lift_staged a
      · rfl
    unfold stageAt at rest ⊢
    rw [mapIdx_cons,liftAll,liftAll,rest,first]

theorem stageAt_any {chosen : Nat → Bool} (data : ∀ a ∈ args, a.isData)
    (picked : ∃ i < args.length, chosen i) : (stageAt chosen args).any Value.isCode := by
  obtain ⟨i,bound,here⟩ := picked
  rw [any_eq_true]
  refine ⟨args[i].staged,?_,?_⟩
  · rw [stageAt,mem_mapIdx]
    exact ⟨i,bound,by simp [here]⟩
  · obtain ⟨c,lifted,_⟩ := lift_data "" (data _ (getElem_mem bound))
    simp [staged,lifted,isCode]

theorem operand_ok (ok : operand op v = .ok n) : v = .int n := by
  unfold operand at ok
  split at ok
  · next found =>
    cases ok
    cases v <;> simp_all [int?]
  · cases ok

theorem operand_builds (ok : operand op v = .ok n) (builds : c.Builds helper v) :
    c.Denotes helper (.int n.toInt) := by
  rw [operand_ok ok] at builds
  obtain ⟨_,tree,denotes⟩ := builds
  cases tree
  exact denotes

theorem exactly_ok_iff {operation : Overflow} {n : Int} {m : Int64} :
    exactly operation n = .ok m ↔ m.toInt = n := by
  rw [← Word.ofInt?_iff,exactly]
  cases Word.ofInt? n <;> simp [fail]

section Folds

variable {op : Primitive} {operation : Overflow} {f : Int → Int → Int} {helper : String}
  (routine : ∀ a b : Int, call? helper [.int a,.int b] = some (.int (f a b)))

include routine

theorem foldInts_builds {acc : Int64} {rest : List Value}
    (ok : foldInts op operation f acc rest = .ok r)
    (each : List.Forall₂ (Builds helper) codes rest)
    (denotes : first.Denotes helper (.int acc.toInt)) :
    (codes.foldl (.call2 helper) first).Denotes helper (.int r.toInt) := by
  induction each generalizing acc first with
  | nil =>
    cases ok
    exact denotes
  | cons builds _ ih =>
    rw [foldInts] at ok
    split at ok
    · cases ok
    · next n isInt =>
      split at ok
      · cases ok
      · next m exact =>
        apply ih ok
        rw [exactly_ok_iff.mp exact]
        exact denotes.call2 (operand_builds isInt builds) (routine _ _)

theorem foldFirst_builds (ok : foldFirst op operation f args = .ok r)
    (each : List.Forall₂ (Builds helper) codes args) :
    ∃ first rest, codes = first :: rest ∧ (rest.foldl (.call2 helper) first).Denotes helper (.int r.toInt) := by
  cases each with
  | nil => cases ok
  | cons builds each =>
    rw [foldFirst] at ok
    split at ok
    · cases ok
    · next acc isInt =>
      exact ⟨_,_,rfl,foldInts_builds routine ok each (operand_builds isInt builds)⟩

end Folds

theorem emit_fold (folds : op.emission = .fold) (other : op ≠ sub) (first : Code)
    (rest : List Code) : emit op (first :: rest) = .ok (rest.foldl (.call2 op.helper) first) := by
  unfold emit
  rw [folds]
  cases rest <;> simp [other]

theorem emit_sub {second : Code} {rest : List Code} : emit sub (first :: second :: rest) =
      .ok ((second :: rest).foldl (.call2 "sub") first) :=
  rfl

/-- The quotient of two 64-bit integers fits, except for the least one by minus one. -/
theorem tdiv_toInt {a b : Int64} (other : ¬ (a = minValue ∧ b = -1)) :
    (ofInt (a.toInt.tdiv b.toInt)).toInt = a.toInt.tdiv b.toInt := by
  have lower := a.le_toInt
  have upper := a.toInt_lt
  have bounds : -2 ^ 63 ≤ a.toInt.tdiv b.toInt ∧ a.toInt.tdiv b.toInt < 2 ^ 63 := by
    by_cases one : b.toInt = 1
    · rw [one,Int.tdiv_one]
      exact ⟨lower,upper⟩
    by_cases minus : b.toInt = -1
    · have notLeast : a.toInt ≠ -2 ^ 63 := fun least =>
        other ⟨toInt_inj.mp least,toInt_inj.mp minus⟩
      rw [minus,Int.tdiv_neg,Int.tdiv_one]
      omega
    -- Any other divisor at least halves the dividend, or is zero and gives zero.
    have size : (a.toInt.tdiv b.toInt).natAbs ≤ a.toInt.natAbs / 2 := by
      rw [Int.natAbs_tdiv]
      rcases Nat.eq_zero_or_pos b.toInt.natAbs with zero | positive
      · rw [zero]
        exact (Nat.div_zero _).le.trans (Nat.zero_le _)
      · exact Nat.div_le_div_left (by omega) (by omega)
    omega
  exact toInt_ofInt_of_le bounds.1 bounds.2

theorem tmod_toInt (a b : Int64) (nonzero : b ≠ 0) :
    (ofInt (a.toInt.tmod b.toInt)).toInt = a.toInt.tmod b.toInt := by
  have lower := b.le_toInt
  have upper := b.toInt_lt
  have other : b.toInt ≠ 0 := fun zero => nonzero (toInt_inj.mp zero)
  have size : (a.toInt.tmod b.toInt).natAbs < b.toInt.natAbs := by
    rw [Int.natAbs_tmod]
    exact Nat.mod_lt _ (by omega)
  exact toInt_ofInt_of_le (by omega) (by omega)

theorem map_ok {α β : Type} {result : Result α} {f : α → β} {y : β} (ok : result.map f = .ok y) :
    ∃ x, result = .ok x ∧ f x = y := by
  cases result with
  | error _ => cases ok
  | ok x => exact ⟨x,rfl,Except.ok.inj ok⟩

theorem compare_ok {f : Int → Int → Bool} {a b : Value} {r : Bool} (ok : compare op f a b = .ok r) :
    ∃ n m, operand op a = .ok n ∧ operand op b = .ok m ∧ r = f n.toInt m.toInt := by
  unfold compare at ok
  split at ok
  · cases ok
  · next n left =>
    split at ok
    · cases ok
    · next m right =>
      cases ok
      exact ⟨n,m,left,right,rfl⟩

theorem divide_ok {f : Int → Int → Int} {a b : Value} (ok : divide op f a b = .ok r) :
    ∃ n m, operand op a = .ok n ∧ operand op b = .ok m ∧ m ≠ 0 ∧
      ¬ (n = minValue ∧ m = -1) ∧ r = .ofInt (f n.toInt m.toInt) := by
  unfold divide at ok
  split at ok
  · cases ok
  · next n left =>
    split at ok
    · cases ok
    · next m right =>
      split at ok
      · cases ok
      · next nonzero =>
        split at ok
        · cases ok
        · next other =>
          cases ok
          exact ⟨n,m,left,right,nonzero,other,rfl⟩

theorem boolean_builds {b : Bool} (denotes : c.Denotes helper (.int (bit b))) : c.Builds helper (boolean b) :=
  ⟨_,by cases b <;> rfl,denotes⟩

section Calls

variable {op : Primitive} {a b : Value} {next next' : Nat} {v : Value} {left right : Code} {operator : Operator}

theorem comparison_builds {f : Int → Int → Bool} (result : ∀ x y, operator.apply x y = some (bit (f x y)))
    (routine : ∀ x y, call? op.helper [x,y] = (operator.apply x.number y.number).map .int)
    (ok : (compare op f a b).map (fun r => (boolean r,next)) = .ok (v,next'))
    (buildsA : left.Builds op.helper a) (buildsB : right.Builds op.helper b) :
    (call2 op.helper left right).Builds op.helper v := by
  obtain ⟨r,compared,same⟩ := map_ok ok
  cases same
  obtain ⟨n,m,isA,isB,rfl⟩ := compare_ok compared
  apply boolean_builds
  apply (operand_builds isA buildsA).call2 (operand_builds isB buildsB)
  simp [routine,number,result]

theorem division_builds {f : Int → Int → Int} (result : ∀ x y, y ≠ 0 → operator.apply x y = some (f x y))
    (routine : ∀ x y, y.number ≠ 0 → call? op.helper [x,y] = (operator.apply x.number y.number).map .int)
    (fits : ∀ n m : Int64, m ≠ 0 → ¬ (n = minValue ∧ m = -1) →
      (ofInt (f n.toInt m.toInt)).toInt = f n.toInt m.toInt)
    (ok : (divide op f a b).map (fun r => (Value.int r,next)) = .ok (v,next'))
    (buildsA : left.Builds op.helper a) (buildsB : right.Builds op.helper b) :
    (call2 op.helper left right).Builds op.helper v := by
  obtain ⟨r,divided,same⟩ := map_ok ok
  cases same
  obtain ⟨n,m,isA,isB,nonzero,other,rfl⟩ := divide_ok divided
  have positive : m.toInt ≠ 0 := fun zero => nonzero (toInt_inj.mp zero)
  refine ⟨_,rfl,?_⟩
  rw [fits n m nonzero other]
  apply (operand_builds isA buildsA).call2 (operand_builds isB buildsB)
  have called := routine (.int n.toInt) (.int m.toInt) positive
  rw [called,number,number,result _ _ positive]
  rfl

theorem test_builds {test : Bool} (routine : ∀ o, a.tree? = some o → call? op.helper [o] = some (.int (bit test)))
    (buildsA : left.Builds op.helper a) :
    (call1 op.helper left).Builds op.helper (boolean test) := by
  obtain ⟨o,tree,denotes⟩ := buildsA
  exact boolean_builds (denotes.call1 (routine o tree))

end Calls

theorem tree_isTrue {o : Contents} (tree : v.tree? = some o) : o.isTrue = v.truthy := by
  cases v with
  | int n =>
    cases tree
    simp only [Contents.isTrue,truthy]
    by_cases zero : n = 0
    · simp [zero]
    · have other : n.toInt ≠ 0 := fun equal => zero (Int64.toInt_inj.mp equal)
      simp [zero,other]
  | nil => cases tree; rfl
  | pair cell head tail =>
    obtain ⟨x,_,rest⟩ := Option.bind_eq_some_iff.mp tree
    obtain ⟨y,_,rfl⟩ := Option.map_eq_some_iff.mp rest
    rfl
  | _ => cases tree

theorem not_call (v : Value) (o : Contents) (tree : v.tree? = some o) :
    call? "not_op" [o] = some (.int (bit !v.truthy)) := by
  rw [← tree_isTrue tree]
  have called : call? "not_op" [o] =
      ((callScalar "is_true" o).map fun a => bit (a = 0)).map .int := rfl
  rw [called,callScalar_is_true]
  cases o.isTrue <;> rfl

theorem kind_calls (v : Value) (o : Contents) (tree : v.tree? = some o) :
    call? "is_nil" [o] = some (.int (bit v.isNil)) ∧
      call? "is_pair" [o] = some (.int (bit v.cell?.isSome)) := by
  cases v with
  | int | nil => cases tree; exact ⟨rfl,rfl⟩
  | pair cell head tail =>
    obtain ⟨x,_,rest⟩ := Option.bind_eq_some_iff.mp tree
    obtain ⟨y,_,rfl⟩ := Option.map_eq_some_iff.mp rest
    exact ⟨rfl,rfl⟩
  | _ => cases tree

theorem pair_denotes {cell : Nat} {head tail : Value} (builds : c.Builds helper (.pair cell head tail)) :
    ∃ x y, head.tree? = some x ∧ tail.tree? = some y ∧ c.Denotes helper (.pair x y) := by
  obtain ⟨o,tree,denotes⟩ := builds
  obtain ⟨x,treeHead,rest⟩ := Option.bind_eq_some_iff.mp tree
  obtain ⟨y,treeTail,rfl⟩ := Option.map_eq_some_iff.mp rest
  exact ⟨x,y,treeHead,treeTail,denotes⟩

section

variable (each : List.Forall₂ (Builds helper) codes args)

include each

theorem one_operand (one : args.length == 1) : ∃ c a, codes = [c] ∧ args = [a] ∧ c.Builds helper a := by
  obtain ⟨a,rfl⟩ := length_eq_one_iff.mp (beq_iff_eq.mp one)
  rcases each with _ | ⟨builds,_ | ⟨_,_⟩⟩
  exact ⟨_,a,rfl,rfl,builds⟩

theorem two_operands (two : args.length == 2) :
    ∃ c d a b, codes = [c,d] ∧ args = [a,b] ∧ c.Builds helper a ∧ d.Builds helper b := by
  obtain ⟨a,b,rfl⟩ := length_eq_two.mp (beq_iff_eq.mp two)
  rcases each with _ | ⟨left,_ | ⟨right,_ | ⟨_,_⟩⟩⟩
  exact ⟨_,_,a,b,rfl,rfl,left,right⟩

theorem ofItems_builds (next : Nat) : (codes.foldr (pair none) .null).Builds helper (ofItems args next).1 := by
  induction each with
  | nil => exact ⟨_,rfl,.null⟩
  | cons builds _ ih =>
    obtain ⟨x,tree,denotes⟩ := builds
    obtain ⟨y,rest,denoted⟩ := ih
    exact ⟨.pair x y,by simp [ofItems,tree?,tree,rest],denotes.pair denoted⟩

end

theorem difference_builds (nonempty : args ≠ []) (ok : difference args = .ok r)
    (each : List.Forall₂ (Builds sub.helper) codes args) :
    ∃ c, emit sub codes = .ok c ∧ c.Denotes sub.helper (.int r.toInt) := by
  rcases each with _ | ⟨builds,_ | ⟨builds',each⟩⟩
  · exact absurd rfl nonempty
  · -- A single operand is taken from zero.
    rw [difference] at ok
    split at ok
    · cases ok
    · next n isInt =>
      refine ⟨_,rfl,?_⟩
      rw [exactly_ok_iff.mp ok]
      apply (Denotes.int 0).call2 (operand_builds isInt builds)
      exact congrArg (fun n => some (Contents.int n)) (Int.zero_sub _)
  · rw [difference] at ok
    · obtain ⟨first,rest,same,denotes⟩ := foldFirst_builds (fun _ _ => rfl) ok (.cons builds (.cons builds' each))
      cases same
      exact ⟨_,emit_sub,denotes⟩
    · intro only alone
      cases alone

theorem emit_builds (other : op ≠ eq) {next next' : Nat} (nonempty : args ≠ [])
    (admitted : op.arity.admits args.length) (reduced : reduce op args next = .ok (v,next'))
    (each : List.Forall₂ (Builds op.helper) codes args) :
    ∃ c, emit op codes = .ok c ∧ c.Builds op.helper v := by
  cases op with
  | eq => exact absurd rfl other
  | add =>
    obtain ⟨r,summed,same⟩ := map_ok reduced
    cases same
    have folded : foldFirst add .addition (· + ·) args = .ok r := by
      cases args with
      | nil => exact absurd rfl nonempty
      | cons => exact summed
    obtain ⟨first,rest,rfl,denotes⟩ := foldFirst_builds (fun _ _ => rfl) folded each
    exact ⟨_,emit_fold rfl (by decide) first rest,_,rfl,denotes⟩
  | mul =>
    obtain ⟨r,folded,same⟩ := map_ok reduced
    cases same
    obtain ⟨first,rest,rfl,denotes⟩ := foldFirst_builds (fun _ _ => rfl) folded each
    exact ⟨_,emit_fold rfl (by decide) first rest,_,rfl,denotes⟩
  | sub =>
    obtain ⟨r,subtracted,same⟩ := map_ok reduced
    cases same
    obtain ⟨c,emitted,denotes⟩ := difference_builds nonempty subtracted each
    exact ⟨c,emitted,_,rfl,denotes⟩
  | list =>
    have listed : ofItems args next = (v,next') := Except.ok.inj reduced
    have builds := ofItems_builds each next
    rw [listed] at builds
    exact ⟨_,rfl,builds⟩
  | cons =>
    obtain ⟨c,d,a,b,rfl,rfl,⟨x,treeA,denotesA⟩,⟨y,treeB,denotesB⟩⟩ := two_operands each admitted
    cases reduced
    exact ⟨_,rfl,.pair x y,by simp [tree?,treeA,treeB],denotesA.pair denotesB⟩
  | car =>
    obtain ⟨c,a,rfl,rfl,builds⟩ := one_operand each admitted
    cases a with
    | pair cell head tail =>
      cases reduced
      obtain ⟨x,y,tree,_,denotes⟩ := pair_denotes builds
      exact ⟨_,rfl,x,tree,denotes.call1 rfl⟩
    | _ => cases reduced
  | cdr =>
    obtain ⟨c,a,rfl,rfl,builds⟩ := one_operand each admitted
    cases a with
    | pair cell head tail =>
      cases reduced
      obtain ⟨x,y,_,tree,denotes⟩ := pair_denotes builds
      exact ⟨_,rfl,y,tree,denotes.call1 rfl⟩
    | _ => cases reduced
  | not =>
    obtain ⟨c,a,rfl,rfl,builds⟩ := one_operand each admitted
    cases reduced
    exact ⟨_,rfl,test_builds (not_call a) builds⟩
  | isNull =>
    obtain ⟨c,a,rfl,rfl,builds⟩ := one_operand each admitted
    cases reduced
    exact ⟨_,rfl,test_builds (fun o tree => (kind_calls a o tree).1) builds⟩
  | isPair =>
    obtain ⟨c,a,rfl,rfl,builds⟩ := one_operand each admitted
    cases reduced
    exact ⟨_,rfl,test_builds (fun o tree => (kind_calls a o tree).2) builds⟩
  | div =>
    obtain ⟨c,d,a,b,rfl,rfl,left,right⟩ := two_operands each admitted
    have quotient (x y : Int) (nonzero : y ≠ 0) : Operator.div.apply x y = some (x.tdiv y) := if_neg nonzero
    exact ⟨_,rfl,division_builds quotient (division_run "div_op" .div)
      (fun _ _ _ => tdiv_toInt) reduced left right⟩
  | mod =>
    obtain ⟨c,d,a,b,rfl,rfl,left,right⟩ := two_operands each admitted
    have remainder (x y : Int) (nonzero : y ≠ 0) : Operator.rem.apply x y = some (x.tmod y) := if_neg nonzero
    exact ⟨_,rfl,division_builds remainder (division_run "mod_op" .rem)
      (fun n m nonzero _ => tmod_toInt n m nonzero) reduced left right⟩
  | lt | gt | le | ge | numEq =>
    obtain ⟨c,d,a,b,rfl,rfl,left,right⟩ := two_operands each admitted
    exact ⟨_,rfl,comparison_builds (fun _ _ => rfl) (Routine.arithmetic_run _ _) reduced left right⟩

theorem data_not_code (data : ∀ a ∈ args, a.isData) : args.any Value.isCode = false := by
  rw [any_eq_false]
  intro a member
  have plain := data a member
  cases a <;> simp_all [isData,isCode]

/-- Where a primitive has a value on data, staging any of its operands gives a fragment made of
constructors and the routine of the primitive which builds the tree of that value. -/
theorem apply_staged_builds {op : Primitive} (other : op ≠ eq) {args : List Value}
    (data : ∀ a ∈ args, a.isData) {next next' : Nat} {v : Value}
    (reduced : op.apply args next = .ok (v,next')) {chosen : Nat → Bool}
    (picked : ∃ i < args.length, chosen i) :
    ∃ c o, op.apply (stageAt chosen args) next = .ok (.code c,next) ∧ c.isOver op.helper ∧
      c.object? = some o ∧ v.tree? = some o := by
  have admitted : op.arity.admits args.length := by
    cases refused : op.arity.admits args.length with
    | true => rfl
    | false =>
      rw [apply,refused] at reduced
      cases reduced
  have direct : reduce op args next = .ok (v,next') := by
    simpa [apply,admitted,data_not_code data] using reduced
  have nonempty : args ≠ [] := by
    obtain ⟨i,bound,_⟩ := picked
    exact ne_nil_of_length_pos (by omega)
  obtain ⟨codes,lifted,each⟩ := liftAll_data op.helper data
  obtain ⟨c,emitted,o,tree,denotes⟩ := emit_builds other nonempty admitted direct each
  refine ⟨c,o,?_,denotes.calls,denotes.object,tree⟩
  have length : (stageAt chosen args).length = args.length := length_mapIdx
  simp only [apply,length,admitted,stageAt_any data picked,liftAll_stageAt,lifted,emitted]
  rfl

/-- The quotient of minus seven by a staged two is rounded toward zero in the fragment as well. -/
theorem div_staged_builds :
    div.apply [.int (-7),.int 2] 0 = .ok (.int (-3),0) ∧
      ∃ c o, div.apply (stageAt (· == 1) [.int (-7),.int 2]) 0 = .ok (.code c,0) ∧
        c.isOver "div_op" ∧ c.object? = some o ∧ (Value.int (-3)).tree? = some o := by
  have reduced : div.apply [.int (-7),.int 2] 0 = .ok (.int (-3),0) := rfl
  have data : ∀ a ∈ [Value.int (-7),.int 2], a.isData := by simp [Value.isData]
  exact ⟨reduced,apply_staged_builds (by decide) data reduced ⟨1,by decide,rfl⟩⟩

end Primitive

end StagedLisp
