import StagedLisp.Value.Basic

/-! Equality of values is equality of trees. Pairs with one cell are taken for equal without a look
at their parts; where a cell has one head and one tail, this is never wrong. -/
namespace StagedLisp

/-- What the identities stand for: a cell for its head and tail, a procedure for its contents. -/
structure Identities where
  cell : Nat → Value × Value
  procedure : Nat → List String × Value × Env

namespace Value

/-- Every pair and procedure in the value is the one its identity stands for. -/
def BuiltFrom (ids : Identities) : Value → Prop
  | pair cell head tail => ids.cell cell = (head,tail) ∧ head.BuiltFrom ids ∧ tail.BuiltFrom ids
  | closure id params body env => ids.procedure id = (params,body,env)
  | _ => True

/-- The same tree of pairs, with equal integers, names, primitives and texts of fragments at the
leaves, and with the very same procedures and levels. Cells do not matter. -/
inductive SameTree : Value → Value → Prop where
  | int (n : Int64) : SameTree (.int n) (.int n)
  | sym (name : String) : SameTree (.sym name) (.sym name)
  | nil : SameTree .nil .nil
  | pair {cell cell' head head' tail tail'} : SameTree head head' →
      SameTree tail tail' → SameTree (.pair cell head tail) (.pair cell' head' tail')
  | prim (op : Primitive) : SameTree (.prim op) (.prim op)
  | closure (id : Nat) (params : List String) (body : Value) (env : Env) :
      SameTree (.closure id params body env) (.closure id params body env)
  | code {fragment fragment'} : fragment.render = fragment'.render → SameTree (.code fragment) (.code fragment')
  | level (id : Nat) : SameTree (.level id) (.level id)

namespace SameTree

variable {u v w : Value}

theorem refl (v : Value) : v.SameTree v := by
  induction v with
  | pair _ _ _ ihHead ihTail => exact .pair ihHead ihTail
  | code => exact .code rfl
  | _ => constructor

theorem symm (same : v.SameTree w) : w.SameTree v := by
  induction same with
  | pair _ _ ihHead ihTail => exact .pair ihHead ihTail
  | code text => exact .code text.symm
  | _ => constructor

theorem trans (first : u.SameTree v) (second : v.SameTree w) : u.SameTree w := by
  induction first generalizing w with
  | pair _ _ ihHead ihTail =>
    cases second with
    | pair head tail => exact .pair (ihHead head) (ihTail tail)
  | code text =>
    cases second with
    | code text' => exact .code (text.trans text')
  | _ => exact second

end SameTree

variable {ids : Identities} {v w : Value}

/-- Structural equality is found whatever the cells are; only the converse needs them to have one
content each. -/
theorem same_of_sameTree (same : v.SameTree w) : v.same w := by
  induction same with
  | pair _ _ ihHead ihTail => simp [Value.same,ihHead,ihTail]
  | code text => simp [Value.same,text]
  | _ => simp [Value.same]

theorem sameTree_of_same (built : v.BuiltFrom ids) (built' : w.BuiltFrom ids)
    (equal : v.same w) : v.SameTree w := by
  induction v generalizing w with
  | pair cell head tail ihHead ihTail =>
    cases w with
    | pair cell' head' tail' =>
      obtain ⟨here,builtHead,builtTail⟩ := built
      obtain ⟨there,builtHead',builtTail'⟩ := built'
      rw [same,Bool.or_eq_true,beq_iff_eq,Bool.and_eq_true] at equal
      rcases equal with rfl | ⟨heads,tails⟩
      · cases here.symm.trans there
        exact .refl _
      · exact .pair (ihHead builtHead builtHead' heads) (ihTail builtTail builtTail' tails)
    | _ => cases equal
  | closure id params body env =>
    cases w with
    | closure =>
      cases beq_iff_eq.mp equal
      cases Eq.trans (Eq.symm built) built'
      exact .closure _ _ _ _
    | _ => cases equal
  | code fragment =>
    cases w with
    | code => exact .code (beq_iff_eq.mp equal)
    | _ => cases equal
  | nil =>
    cases w with
    | nil => exact .nil
    | _ => cases equal
  | int | sym | prim | level =>
    cases w <;> first
      | cases equal
      | cases beq_iff_eq.mp equal; constructor

/-- Among values built from one family of cells and procedures, equality is an equivalence, and it
holds exactly of values with the same tree, however their cells are shared. -/
theorem same_structural (ids : Identities) :
    (Equivalence fun v w : {v : Value // v.BuiltFrom ids} => v.1.same w.1) ∧
      ∀ v w : {v : Value // v.BuiltFrom ids}, v.1.same w.1 ↔ v.1.SameTree w.1 := by
  have structural (v w : {v : Value // v.BuiltFrom ids}) : v.1.same w.1 ↔ v.1.SameTree w.1 :=
    ⟨sameTree_of_same v.2 w.2,same_of_sameTree⟩
  refine ⟨?_,structural⟩
  simp only [structural]
  exact ⟨fun v => .refl v.1,.symm,.trans⟩

/-- A list that stands twice in a pair equals two copies of it. -/
theorem same_structural_shared :
    let list (cell : Nat) : Value := .pair cell (.int 7) .nil
    let ids : Identities :=
      ⟨fun cell => if cell = 3 then (list 0,list 0) else if cell = 4 then (list 1,list 2)
        else (.int 7,.nil),fun _ => ([],.nil,[])⟩
    let v := pair 3 (list 0) (list 0)
    let w := pair 4 (list 1) (list 2)
    v.BuiltFrom ids ∧ w.BuiltFrom ids ∧ v.same w ∧ v.SameTree w := by
  intro list ids v w
  have first : v.BuiltFrom ids := by simp [v,ids,list,BuiltFrom]
  have second : w.BuiltFrom ids := by simp [w,ids,list,BuiltFrom]
  have equal : v.same w := by decide
  exact ⟨first,second,equal,((same_structural ids).2 ⟨v,first⟩ ⟨w,second⟩).mp equal⟩

end Value

end StagedLisp
