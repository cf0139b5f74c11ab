import StagedLisp.Proofs.Eval.Frame

/-! Values now and fragments later. An expression that is evaluated without staging has a value; with
staging it has the same value or a fragment, which computes the value in any scope where the
variables it refers to have theirs. -/
namespace StagedLisp

open Code Value

open Support (Contents)

/-- The value is data with these contents, or a fragment that computes them in every scope
considered. -/
def Stands (covers : Scope → Prop) (w : Value) (o : Contents) : Prop :=
  (w.isData ∧ w.tree? = some o) ∨ ∃ c, w = .code c ∧ ∀ scope, covers scope → c.value? scope = some o

def Agrees (covers : Scope → Prop) (v w : Value) : Prop :=
  v.isData ∧ ∃ o, v.tree? = some o ∧ Stands covers w o

section Values

variable {covers covers' : Scope → Prop} {v w : Value} {o : Contents} {c : Code}

theorem Value.isData_tree (data : v.isData) : ∃ o, v.tree? = some o := by
  obtain ⟨_,_,o,tree,_⟩ := lift_data "" data
  exact ⟨o,tree⟩

theorem Value.isData_not_code (data : v.isData) : v.isCode = false := by
  cases v with
  | code => cases data
  | _ => rfl

theorem Value.lift_value (data : v.isData) (tree : v.tree? = some o) (lifted : v.lift = .ok c)
    (scope : Scope) : c.value? scope = some o := by
  obtain ⟨_,same,_,tree',denotes⟩ := lift_data "" data
  cases lifted.symm.trans same
  cases tree.symm.trans tree'
  exact value?_object denotes.object scope

theorem Stands.mono (stands : Stands covers w o) (fewer : ∀ scope, covers' scope → covers scope) :
    Stands covers' w o := by
  rcases stands with data | ⟨c,rfl,computes⟩
  · exact .inl data
  · exact .inr ⟨c,rfl,fun scope covered => computes scope (fewer scope covered)⟩

theorem Agrees.mono (agrees : Agrees covers v w) (fewer : ∀ scope, covers' scope → covers scope) :
    Agrees covers' v w := by
  obtain ⟨data,o,tree,stands⟩ := agrees
  exact ⟨data,o,tree,stands.mono fewer⟩

theorem Agrees.data (data : v.isData) : Agrees covers v v := by
  obtain ⟨o,tree⟩ := isData_tree data
  exact ⟨data,o,tree,.inl ⟨data,tree⟩⟩

theorem Stands.lift (stands : Stands covers w o) (lifted : w.lift = .ok c) {scope : Scope}
    (covered : covers scope) : c.value? scope = some o := by
  rcases stands with ⟨data,tree⟩ | ⟨d,rfl,computes⟩
  · exact lift_value data tree lifted scope
  · cases lifted
    exact computes scope covered

theorem Stands.lifts (stands : Stands covers w o) : ∃ c, w.lift = .ok c := by
  rcases stands with ⟨data,_⟩ | ⟨c,rfl,_⟩
  · obtain ⟨c,lifted,_⟩ := lift_data "" data
    exact ⟨c,lifted⟩
  · exact ⟨c,rfl⟩

theorem Agrees.lift (agrees : Agrees covers v w) (lifted : w.lift = .ok c) : Agrees covers v (.code c) := by
  obtain ⟨data,o,tree,stands⟩ := agrees
  exact ⟨data,o,tree,.inr ⟨c,rfl,fun _ covered => stands.lift lifted covered⟩⟩

theorem Agrees.plain (agrees : Agrees covers v w) (plain : w.isCode = false) : Agrees covers' v w := by
  obtain ⟨data,o,tree,standing | ⟨_,rfl,_⟩⟩ := agrees
  · exact ⟨data,o,tree,.inl standing⟩
  · cases plain

theorem Stands.isStaged (stands : Stands covers w o) : w.isStaged := by
  obtain ⟨data,_⟩ | ⟨_,rfl,_⟩ := stands
  · simp [Value.isStaged,data]
  · rfl

end Values

section Lists

variable {covers covers' : Scope → Prop} {vs ws : List Value} (each : List.Forall₂ (Agrees covers) vs ws)

include each

theorem Agrees.all_data : ∀ v ∈ vs, v.isData := by
  induction each with
  | nil => simp
  | cons agrees _ ih => simpa [agrees.1] using ih

theorem Agrees.all_plain (plain : ws.any isCode = false) : List.Forall₂ (Agrees covers') vs ws := by
  induction each with
  | nil => exact .nil
  | cons agrees _ ih =>
    rw [List.any_cons,Bool.or_eq_false_iff] at plain
    exact .cons (agrees.plain plain.1) (ih plain.2)

theorem Agrees.all_later_data (plain : ws.any isCode = false) : ∀ w ∈ ws, w.isData := by
  induction each with
  | nil => simp
  | @cons v w vs ws agrees _ ih =>
    rw [List.any_cons,Bool.or_eq_false_iff] at plain
    obtain ⟨_,_,_,stands⟩ := agrees
    have data : w.isData := by simpa [isStaged,plain.1] using stands.isStaged
    simpa [data] using ih plain.2

end Lists

namespace Primitive

variable {covers : Scope → Prop} {op : Primitive}

variable {vs ws : List Value} {next next' : Nat} {w : Value}

theorem liftAll_values {ds : List Code} {scope : Scope}
    (each : List.Forall₂ (Agrees covers) vs ws) (covered : covers scope)
    (lifted : liftAll ws = .ok ds) {cs : List Code} {helper : String}
    (builds : List.Forall₂ (Builds helper) cs vs) (scope' : Scope) :
    List.Forall₂ (SameValue scope scope') ds cs := by
  induction each generalizing ds cs with
  | nil =>
    cases lifted
    cases builds
    exact .nil
  | @cons v w vs ws agrees _ ih =>
    obtain ⟨_,o,tree,stands⟩ := agrees
    rw [liftAll] at lifted
    split at lifted
    · cases lifted
    · next d first =>
      split at lifted
      · cases lifted
      · next rest =>
        cases lifted
        rcases builds with _ | ⟨⟨_,tree',denotes⟩,builds⟩
        cases tree.symm.trans tree'
        refine .cons ?_ (ih rest builds)
        rw [SameValue,stands.lift first covered,value?_object denotes.object]

theorem reduce_nil {mid mid' : Nat} {v : Value} (first : reduce op [] next = .ok (v,next'))
    (second : reduce op [] mid = .ok (w,mid')) : v = w := by
  cases op <;> cases first <;> cases second <;> rfl

theorem apply_agrees (other : op ≠ eq) {v : Value} {mid mid' : Nat}
    (each : List.Forall₂ (Agrees covers) vs ws) (now : op.apply vs next = .ok (v,next'))
    (later : op.apply ws mid = .ok (w,mid')) : Agrees covers v w := by
  have data := Agrees.all_data each
  obtain ⟨admitted,⟨_,reduced⟩ | ⟨code,_⟩⟩ := apply_cases now
  swap
  · rw [data_not_code data] at code
    cases code
  obtain ⟨admitted',later⟩ := apply_cases later
  by_cases nonempty : vs = []
  · subst nonempty
    cases each
    rcases later with ⟨_,reduced'⟩ | ⟨code,_⟩
    · cases reduce_nil reduced reduced'
      exact .data ((reduce_makes reduced).data data)
    · cases code
  -- The calls with all operands lifted have the same value, which is that of the result.
  obtain ⟨cs,_,builds⟩ := liftAll_data op.helper data
  obtain ⟨c,emitted,o,tree,denotes⟩ := emit_builds other nonempty admitted reduced builds
  refine ⟨(reduce_makes reduced).data data,o,tree,?_⟩
  rcases later with ⟨plain,reduced'⟩ | ⟨_,ds,d,lifted,emitted',rfl⟩
  · have data' := Agrees.all_later_data each plain
    have nonempty' : ws ≠ [] := by
      rintro rfl
      cases each
      exact nonempty rfl
    have each' : List.Forall₂ (Agrees fun _ => True) vs ws := Agrees.all_plain each plain
    obtain ⟨ds,lifted,builds'⟩ := liftAll_data op.helper data'
    obtain ⟨d,emitted',o',tree',denotes'⟩ := emit_builds other nonempty' admitted' reduced' builds'
    have same : SameValue [] [] d c :=
      emit_sameValue (liftAll_values each' trivial lifted builds []) emitted' emitted
    rw [SameValue,value?_object denotes'.object,value?_object denotes.object] at same
    cases same
    exact .inl ⟨(reduce_makes reduced').data data',tree'⟩
  · refine .inr ⟨d,rfl,fun scope covered => ?_⟩
    have same := emit_sameValue (liftAll_values each covered lifted builds []) emitted' emitted
    exact same.trans (value?_object denotes.object [])

theorem apply_code (each : List.Forall₂ (Agrees covers) vs ws)
    (applied : op.apply ws next = .ok (w,next')) (code : w.isCode) : ws.any isCode := by
  obtain ⟨_,⟨plain,reduced⟩ | ⟨some,_⟩⟩ := apply_cases applied
  · have data := (reduce_makes reduced).data (Agrees.all_later_data each plain)
    rw [isData_not_code data] at code
    cases code
  · exact some

end Primitive

/-- In the scope, the variables that an expression may refer to have their values, and the flags that
it may set are there. -/
structure Covers (names : List String) (objects : String → Contents) (refs : String → Prop)
    (releases : List BranchRelease) (e : Value) (scope : Scope) : Prop where
  known : ∀ y ∈ names, LooksUp e y → refs y → scope.lookup (identifier y) = some (.object (objects y))
  flags : ∀ r ∈ releases, scope.lookup (flagName r.drop.target) = some .flag

variable {refs : String → Prop} {parts : List Value} {keyword : String}

theorem Covers.part {names : List String} {objects : String → Contents}
    {releases : List BranchRelease} {e part : Value} {scope : Scope}
    (covers : Covers names objects refs releases e scope)
    (looks : ∀ y, LooksUp part y → LooksUp e y) : Covers names objects refs releases part scope :=
  ⟨fun y member there => covers.known y member (looks y there),covers.flags⟩

theorem IsForm.looks {e part : Value} (items : IsForm keyword parts e)
    (listed : ([],part) ∈ (View.ofKeyword keyword parts).scopes) (y : String)
    (looks : LooksUp part y) : LooksUp e y :=
  .part items.view listed List.not_mem_nil looks

theorem IsForm.stages {e part : Value} (items : IsForm keyword parts e)
    (listed : ([],part) ∈ (View.ofKeyword keyword parts).parts)
    (scopes : ([],part) ∈ (View.ofKeyword keyword parts).scopes) (stages : Stages refs part) :
    Stages refs e :=
  .part items.view listed scopes (stages.mono fun _ refers => ⟨List.not_mem_nil,refers⟩)

theorem Level.Dropped.value {l : Level} {c d : Code} (dropped : l.Dropped c d) {scope : Scope}
    (flags : ∀ r ∈ l.releases, scope.lookup (flagName r.drop.target) = some .flag) :
    d.value? scope = c.value? scope := by
  cases dropped with
  | unchanged => rfl
  | releasing listed =>
    apply value?_dropping
    intro drop member
    obtain ⟨r,among,rfl⟩ := listed drop member
    exact flags r among

/-- Two levels with the same names, of which the first does not stage. The names have these objects
as values there; at the second level they have the same values, or are variables of the generated
program. -/
structure Tied (t : Store) (b : Nat) (s : Store) (a : Nat) (names : List String)
    (objects : String → Contents) (refs : String → Prop) : Prop where
  now : Standing t b names
  later : Standing s a names
  off : (t.levelAt b).staging = false
  values : ∀ x ∈ names, ∃ v w, t.valueAt b x = some v ∧ v.isData ∧ v.tree? = some (objects x) ∧
    s.valueAt a x = some w ∧ (w.isData ∧ w.tree? = some (objects x) ∨ w = .reference x ∧ refs x)

namespace Tied

variable {t t' s s' : Store} {a b : Nat} {names : List String} {objects : String → Contents} {refs : String → Prop}

variable (tied : Tied t b s a names objects refs)

include tied

theorem keeps {m n : Nat} (first : t.Keeps m t') (second : s.Keeps n s') (below : b < m)
    (below' : a < n) : Tied t' b s' a names objects refs where
  now := tied.now.keeps first below
  later := tied.later.keeps second below'
  off := by
    rw [first.levels b below]
    exact tied.off
  values x member := by
    obtain ⟨v,w,found,data,tree,found',means⟩ := tied.values x member
    exact ⟨v,w,first.valueAt below found,data,tree,second.valueAt below' found',means⟩

theorem mono {refs' : String → Prop} (more : ∀ x, refs x → refs' x) : Tied t b s a names objects refs' where
  now := tied.now
  later := tied.later
  off := tied.off
  values x member := by
    obtain ⟨v,w,found,data,tree,found',means⟩ := tied.values x member
    exact ⟨v,w,found,data,tree,found',means.imp_right fun ⟨same,refers⟩ => ⟨same,more x refers⟩⟩

theorem scope : Tied { t with levels := t.levels.push ((t.levelAt b).scope (t.levelAt b).env) } t.levels.size
    { s with levels := s.levels.push ((s.levelAt a).scope (s.levelAt a).env) } s.levels.size
    names objects refs where
  now := tied.now.scope
  later := tied.later.scope
  off := by
    rw [Store.levelAt_push,if_pos rfl]
    exact tied.off
  values x member := by
    rw [Store.valueAt_scope,Store.valueAt_scope]
    exact tied.values x member

end Tied

end StagedLisp
