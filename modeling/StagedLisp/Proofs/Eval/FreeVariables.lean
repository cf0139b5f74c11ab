import StagedLisp.Proofs.Twin.Rules

/-! Evaluation depends on an environment through the free variables of the expression and the
parameters of the procedures in it, as long as the expression does not reach another level. -/
namespace StagedLisp

open List Relation

/-- Equal values, apart from environments that lead to the same slots. -/
inductive Value.Alike : Value → Value → Prop where
  | int (n : Int64) : Alike (.int n) (.int n)
  | sym (name : String) : Alike (.sym name) (.sym name)
  | nil : Alike .nil .nil
  | pair (cell : Nat) {head head' tail tail'} : Alike head head' → Alike tail tail' →
      Alike (.pair cell head tail) (.pair cell head' tail')
  | prim (op : Primitive) : Alike (.prim op) (.prim op)
  | closure (id : Nat) (params : List String) (body : Value) {env env'} :
      (∀ x, LooksUp body x → env.slot? x = env'.slot? x) →
      Alike (.closure id params body env) (.closure id params body env')
  | code (fragment : Code) : Alike (.code fragment) (.code fragment)
  | level (id : Nat) : Alike (.level id) (.level id)

structure Slots.Alike (slots slots' : Slots) : Prop where
  size : slots.size = slots'.size
  each : ∀ (i : Nat) (v w : Value), slots[i]? = some v → slots'[i]? = some w → v.Alike w

structure Level.Twins (l m : Level) : Prop where
  native : ∀ rule, l.handlers.get rule = .native ∧ m.handlers.get rule = .native
  staging : l.staging = m.staging
  known : l.known = m.known
  releases : l.releases = m.releases

structure Outcome.Alike (o o' : Except Error Value × Store) : Prop where
  result : Result.Alike Value.Alike o.1 o'.1
  slots : Slots.Alike o.2.slots o'.2.slots
  next : o.2.next = o'.2.next
  options : o.2.options = o'.2.options
  registry : o.2.registry = o'.2.registry
  arena : o.2.arena = o'.2.arena

theorem Value.Like.alike {E : Value → Env → Env → Prop} {L : Nat → Nat → Prop} {v w : Value} (like : v.Like E L w)
    (envs : ∀ body env env', E body env env' → ∀ x, LooksUp body x → env.slot? x = env'.slot? x)
    (levels : ∀ i j, L i j → i = j) : v.Alike w := by
  induction like with
  | int n => exact .int n
  | sym name => exact .sym name
  | nil => exact .nil
  | pair cell _ _ ihHead ihTail => exact .pair cell ihHead ihTail
  | prim op => exact .prim op
  | closure id params _ agree => exact .closure id params _ (envs _ _ _ agree)
  | code fragment => exact .code fragment
  | level here => exact levels _ _ here ▸ .level _

theorem Value.spelled_any (v : Value) : v.Spelled fun _ => True := by
  induction v with
  | pair _ _ _ head tail => exact ⟨head,tail⟩
  | _ => trivial

namespace Twin

abbrev byName : Setting := ⟨fun _ => True,none,true⟩

theorem byName_same {n : Numbering} {i j : Nat} : byName.Same n i j ↔ i = j := by
  simp [Setting.Same]

/-- What is above the first level is shared, and the two levels agree on the names of the expression. -/
def pairedLevels (s : Store) (a b : Nat) (e : Value) : Numbering where
  slots := Eq
  levels i j := i = j ∧ s.Above a i ∨ i = a ∧ j = b
  seen i x := s.Above a i ∨ i = a ∧ LooksUp e x

variable {s : Store} {a b : Nat} {e : Value}

theorem pairedLevels_values (v : Value) : Values byName (pairedLevels s a b e) v v := by
  refine .refl (fun body env => ⟨body.spelled_any,.of_entries ?_⟩) (fun _ => byName_same.mpr rfl) v
  exact forall₂_same.mpr fun _ _ => ⟨rfl,rfl⟩

theorem pairedLevels_handler (h : Handler) : HandlerLike byName (pairedLevels s a b e) h h := by
  cases h with
  | native => exact .native
  | reflected v => exact .reflected (pairedLevels_values v)

theorem pairedLevels_above {up : Option Nat} (shared : ∀ p, up = some p → s.Above a p) :
    Above byName (pairedLevels s a b e) s up up := by
  cases up with
  | none => exact .none
  | some p =>
    have above := shared p rfl
    exact .some (.inl ⟨rfl,above⟩) (fun _ => ⟨rfl,fun _ => .inl above⟩) fun _ _ early => by cases early

section Start

variable (tower : s.Tower) (parent : (s.levelAt a).parent = (s.levelAt b).parent)

include tower

theorem above_inside {i : Nat} (above : s.Above a i) : i < s.levels.size := by
  obtain ⟨r,_,last⟩ := TransGen.tail'_iff.mp above
  exact tower.inside r i last

include parent

theorem above_apart {i : Nat} (above : s.Above a i) : i ≠ a ∧ i ≠ b := by
  constructor
  · rintro rfl
    exact tower.founded i above
  · rintro rfl
    obtain ⟨p,here,rest⟩ := TransGen.head'_iff.mp above
    exact tower.founded i (TransGen.head' (parent ▸ here) rest)

theorem pairedLevels_stores (inside : a < s.levels.size) (inside' : b < s.levels.size)
    (twins : (s.levelAt a).Twins (s.levelAt b))
    (agree : ∀ x, LooksUp e x → (s.levelAt a).env.slot? x = (s.levelAt b).env.slot? x) :
    Stores byName (pairedLevels s a b e) s s where
  next := rfl
  options := rfl
  registry := rfl
  arena := rfl
  oneSlot := by
    rintro _ _ _ _ rfl rfl
    exact Iff.rfl
  oneLevel := by
    rintro i _ i' _ (⟨rfl,above⟩ | ⟨rfl,rfl⟩) (⟨rfl,above'⟩ | ⟨rfl,rfl⟩)
    · exact Iff.rfl
    · have apart := above_apart tower parent above
      exact iff_of_false apart.1 apart.2
    · have apart := above_apart tower parent above'
      exact iff_of_false apart.1.symm apart.2.symm
    · exact iff_of_true rfl rfl
  slot := by
    rintro i _ rfl
    cases s.slots[i]? with
    | none => exact .none
    | some v => exact .some (pairedLevels_values v)
  level := by
    rintro i _ (⟨rfl,above⟩ | ⟨rfl,rfl⟩)
    · refine ⟨⟨pairedLevels_above fun p up => above.tail up,fun rule => pairedLevels_handler _,rfl,
        fun _ _ => rfl⟩,.of_entries ?_,rfl⟩
      exact forall₂_same.mpr fun _ _ => ⟨rfl,rfl⟩
    · refine ⟨⟨?_,fun rule => ?_,twins.staging,fun x _ => by rw [twins.known]⟩,⟨?_,nofun⟩,twins.releases⟩
      · rw [← parent]
        exact pairedLevels_above fun p up => .single up
      · rw [(twins.native rule).1,(twins.native rule).2]
        exact .native
      · rintro x (above | ⟨_,looks⟩)
        · exact absurd above (tower.founded i)
        · rw [agree x looks]
          cases Env.slot? _ x with
          | none => exact .none
          | some slot => exact .some rfl
  exact _ := ⟨fun _ _ => id,nofun,rfl,rfl⟩
  loose _ := by
    refine ⟨rfl,?_,?_⟩
    · rintro i _ (⟨rfl,above⟩ | ⟨rfl,rfl⟩)
      · exact ⟨above_inside tower above,above_inside tower above⟩
      · exact ⟨inside,inside'⟩
    · rintro i x (above | ⟨rfl,_⟩)
      · exact above_inside tower above
      · exact inside
  early _ _ early := by cases early

end Start

theorem Stores.alike {n : Numbering} {s t : Store} (stores : Stores byName n s t) {v w : Value}
    (like : Values byName n v w) : v.Alike w := by
  refine Value.Like.alike like (fun body env env' here x looks => ?_) fun _ _ => byName_same.mp
  have found := here.2.slot? x looks
  generalize env.slot? x = slot at found ⊢
  generalize env'.slot? x = slot' at found ⊢
  cases found with
  | none => rfl
  | some here => rw [(stores.exact rfl).slots here]

end Twin

open Twin in
/-- Two levels of one session below the same level, with native rules and the same staging, shapes
and releases, give the same outcome if the free variables of the expression and the parameters of
its procedures lead to the same slots. -/
theorem eval_free_variables {s : Store} (tower : s.Tower) {a b : Nat} (inside : a < s.levels.size)
    (inside' : b < s.levels.size) (twins : (s.levelAt a).Twins (s.levelAt b))
    (parent : (s.levelAt a).parent = (s.levelAt b).parent) {e : Value}
    (nested : NestedWithin walkLimit e) (avoids : Avoids levelKeywords e)
    (agree : ∀ x, x ∈ freeVariables e ∨ HasParameter e x →
      (s.levelAt a).env.slot? x = (s.levelAt b).env.slot? x) (fuel : Nat) :
    Outcome.Alike ((eval fuel a e).run.run s) ((eval fuel b e).run.run s) := by
  have posed : Posed byName (pairedLevels s a b e) s s a b e :=
    ⟨⟨pairedLevels_stores tower parent inside inside' twins fun x looks =>
      agree x (looks.free_or_param nested),.inr ⟨rfl,rfl⟩,fun _ _ early => by cases early⟩,
      ⟨pairedLevels_values e,e.spelled_any⟩,fun _ x looks => .inr ⟨rfl,looks⟩,fun _ => .inr avoids⟩
  obtain ⟨n,evolves,results⟩ := (eval_twins byName fuel).matched posed fun _ _ early => by cases early
  have after := evolves.stores
  refine ⟨results.mono fun v w like => after.alike like,⟨(after.exact rfl).slotCount,?_⟩,after.next,
    after.options,after.registry,after.arena⟩
  intro i v w left right
  have held := after.slot (evolves.within.slots (rfl : i = i))
  rw [left,right] at held
  cases held with
  | some like => exact after.alike like

def sharedCall : Store where
  slots := #[.closure 0 ["k"] (.sym "k") [],.int 5,.int 7]
  levels := #[{ env := [("f",0),("y",1)] },{ env := [("z",2),("y",1),("f",0)] }]

theorem Store.Tower.single {s : Store} {i p : Nat} (inside : p < s.levels.size) (other : i ≠ p)
    (only : ∀ j q, (s.levelAt j).parent = some q → j = i ∧ q = p) : s.Tower where
  inside j q parent := (only j q parent).2 ▸ inside
  founded j above := by
    obtain ⟨q,first,_⟩ := TransGen.head'_iff.mp above
    obtain ⟨r,_,last⟩ := TransGen.tail'_iff.mp above
    exact other ((only j q first).1.symm.trans (only r j last).2)

theorem sharedCall_tower : sharedCall.Tower := by
  refine .single (i := 1) (p := 0) (by decide) (by decide) fun j q parent => ?_
  rcases j with _ | _ | j <;> cases parent

theorem eval_free_variables_call :
    let e : Value := .pair 1 (.sym "f") (.pair 0 (.sym "y") .nil)
    sharedCall.Tower ∧ NestedWithin walkLimit e ∧ Avoids levelKeywords e ∧
      ((eval 9 0 e).run.run sharedCall).1 = .ok (.int 5) ∧
      Outcome.Alike ((eval 9 0 e).run.run sharedCall) ((eval 9 1 e).run.run sharedCall) := by
  intro e
  have shown : View.of? e = some (.call (.sym "f") [.sym "y"]) := rfl
  have nested : NestedWithin (1023 + 1) e := by
    refine .form shown fun part listed => ?_
    rcases mem_pair.mp listed with rfl | rfl <;> exact .atom rfl
  have avoids : Avoids levelKeywords e := by
    refine .form shown (fun keyword head => ?_) fun part listed => ?_
    · cases head
      decide
    · rcases mem_pair.mp listed with rfl | rfl <;> exact .atom rfl
  have agree (x : String) (named : x ∈ freeVariables e ∨ HasParameter e x) :
      (sharedCall.levelAt 0).env.slot? x = (sharedCall.levelAt 1).env.slot? x := by
    rcases named with free | parameter
    · have listed : x ∈ ["f","y"] := free
      rcases mem_pair.mp listed with rfl | rfl <;> rfl
    · cases parameter with
      | here found => cases shown.symm.trans found
      | part found listed parameter =>
        cases shown.symm.trans found
        rcases mem_pair.mp listed with same | same <;> cases same <;> cases parameter with
        | here found => cases found
        | part found => cases found
  refine ⟨sharedCall_tower,nested,avoids,rfl,?_⟩
  refine eval_free_variables (a := 0) (b := 1) sharedCall_tower (by decide) (by decide)
    ⟨fun rule => ?_,rfl,rfl,rfl⟩ rfl nested avoids agree 9
  cases rule <;> exact ⟨rfl,rfl⟩

def parameterOutside : Store where
  slots := #[.int 5]
  levels := #[{ env := [] },{ env := [("y",0)] }]

/-- `((lambda (x y) y) 1)` -/
def omittingOperand : Value :=
  .pair 6 (.pair 4 (.sym "lambda") (.pair 3 (.pair 1 (.sym "x") (.pair 0 (.sym "y") .nil))
    (.pair 2 (.sym "y") .nil))) (.pair 5 (.int 1) .nil)

def nameAbove : Store where
  slots := #[.closure 0 [] (.pair 1 (.sym "EM") (.pair 0 (.sym "y") .nil)) [],.int 5]
  levels := #[{ env := [("f",0)] },{ env := [("f",0)], parent := some 2 },{ env := [("y",1)] }]

/-- `(f)` -/
def callAbove : Value := .pair 0 (.sym "f") .nil

/-- The free variables alone do not decide an outcome. A procedure that is given too few operands
looks up a parameter outside, and a procedure may evaluate at the level above that of its caller. -/
theorem free_variables_insufficient :
    (parameterOutside.Tower ∧
      (parameterOutside.levelAt 0).Twins (parameterOutside.levelAt 1) ∧
      (parameterOutside.levelAt 0).parent = (parameterOutside.levelAt 1).parent ∧
      NestedWithin walkLimit omittingOperand ∧ Avoids levelKeywords omittingOperand ∧
      freeVariables omittingOperand = [] ∧
      ¬ Outcome.Alike ((eval 9 0 omittingOperand).run.run parameterOutside)
        ((eval 9 1 omittingOperand).run.run parameterOutside)) ∧
    nameAbove.Tower ∧ (nameAbove.levelAt 0).Twins (nameAbove.levelAt 1) ∧
      NestedWithin walkLimit callAbove ∧ Avoids levelKeywords callAbove ∧
      (∀ x, (nameAbove.levelAt 0).env.slot? x = (nameAbove.levelAt 1).env.slot? x) ∧
      ¬ Outcome.Alike ((eval 9 0 callAbove).run.run nameAbove)
        ((eval 9 1 callAbove).run.run nameAbove) := by
  have differ {o o' : Except Error Value × Store} (left : ∃ e, o.1 = .error e)
      (right : ∃ v, o'.1 = .ok v) : ¬ Outcome.Alike o o' := by
    obtain ⟨e,left⟩ := left
    obtain ⟨v,right⟩ := right
    rintro ⟨results,_,_,_,_,_⟩
    rw [left,right] at results
    cases results
  refine ⟨⟨?_,⟨fun rule => ?_,rfl,rfl,rfl⟩,rfl,?_,?_,rfl,differ ⟨_,rfl⟩ ⟨_,rfl⟩⟩,?_,
    ⟨fun rule => ?_,rfl,rfl,rfl⟩,?_,?_,fun _ => rfl,differ ⟨_,rfl⟩ ⟨_,rfl⟩⟩
  · refine .single (i := 1) (p := 0) (by decide) (by decide) fun j q parent => ?_
    rcases j with _ | _ | j <;> cases parent
  · cases rule <;> exact ⟨rfl,rfl⟩
  · show NestedWithin (1023 + 1) _
    refine .form rfl fun part listed => ?_
    rcases mem_pair.mp listed with rfl | rfl
    · show NestedWithin (1022 + 1) _
      refine .form rfl fun part listed => ?_
      cases mem_singleton.mp listed
      exact .atom rfl
    · exact .atom rfl
  · refine Avoids.form rfl (fun _ head => nomatch head) fun part listed => ?_
    rcases mem_pair.mp listed with rfl | rfl
    · refine Avoids.form rfl (fun keyword head => ?_) fun part listed => ?_
      · cases head
        decide
      · cases mem_singleton.mp listed
        exact .atom rfl
    · exact .atom rfl
  · refine .single (i := 1) (p := 2) (by decide) (by decide) fun j q parent => ?_
    rcases j with _ | _ | _ | j <;> cases parent
    exact ⟨rfl,rfl⟩
  · cases rule <;> exact ⟨rfl,rfl⟩
  · show NestedWithin (1023 + 1) _
    refine .form rfl fun part listed => ?_
    cases mem_singleton.mp listed
    exact .atom rfl
  · refine Avoids.form rfl (fun keyword head => ?_) fun part listed => ?_
    · cases head
      decide
    · cases mem_singleton.mp listed
      exact .atom rfl

end StagedLisp
