import StagedLisp.Proofs.Eval.Staged

/-! Stageable expressions are evaluated without any effect on what is there: levels and slots stay
as they are, and the values are data or fragments. -/
namespace StagedLisp

open List Value Eval

def Value.isStaged (v : Value) : Bool := v.isData || v.isCode

variable {v : Value} {level : Nat} {names : List String} {s s' : Store} {name : String}
  {releases : List BranchRelease}

theorem Value.isStaged_cases (staged : v.isStaged) : v.isData ∨ ∃ c, v = .code c := by
  rcases Bool.or_eq_true_iff.mp staged with data | code
  · exact .inl data
  · cases v with
    | code c => exact .inr ⟨c,rfl⟩
    | _ => cases code

theorem Value.isData_canLift (data : v.isData) : v.canLift := by
  induction v with
  | pair cell head tail ihHead ihTail =>
    simp only [isData,Bool.and_eq_true] at data
    simp [canLift,ihHead data.1,ihTail data.2]
  | int | nil => rfl
  | _ => cases data

theorem Value.isStaged_material (staged : v.isStaged) : v.isMaterial := by
  rcases isStaged_cases staged with data | ⟨c,rfl⟩
  · cases v with
    | pair => exact isData_canLift data
    | int | nil => rfl
    | _ => cases data
  · rfl

namespace Primitive

variable {op : Primitive} {args : List Value} {next next' : Nat}

theorem Makes.data (makes : op.Makes args next v next') (data : ∀ a ∈ args, a.isData) : v.isData :=
  makes.inherit (P := fun v => v.isData) (fun _ => rfl) rfl (by simp [isData]) data

theorem apply_cases (applied : op.apply args next = .ok (v,next')) : op.arity.admits args.length ∧
      (args.any isCode = false ∧ reduce op args next = .ok (v,next') ∨
        args.any isCode ∧ ∃ codes c, liftAll args = .ok codes ∧ emit op codes = .ok c ∧ v = .code c) := by
  unfold apply at applied
  split at applied
  · cases applied
  · next admitted =>
    refine ⟨by simpa using admitted,?_⟩
    split at applied
    · next code =>
      split at applied
      · cases applied
      · next codes lifted =>
        obtain ⟨c,emitted,same⟩ := map_ok applied
        cases same
        exact .inr ⟨code,codes,c,lifted,emitted,rfl⟩
    · next plain => exact .inl ⟨by simpa using plain,applied⟩

theorem apply_isStaged (staged : ∀ a ∈ args, a.isStaged)
    (applied : op.apply args next = .ok (v,next')) : v.isStaged := by
  obtain ⟨_,⟨plain,reduced⟩ | ⟨_,_,_,_,_,rfl⟩⟩ := apply_cases applied
  · have data : ∀ a ∈ args, a.isData := by
      intro a member
      rcases isStaged_cases (staged a member) with data | ⟨c,rfl⟩
      · exact data
      · exact absurd rfl (any_eq_false.mp plain _ member)
    simp [isStaged,(reduce_makes reduced).data data]
  · rfl

end Primitive

theorem Store.valueAt_scope (s : Store) (level : Nat) (x : String) : Store.valueAt
    { s with levels := s.levels.push ((s.levelAt level).scope (s.levelAt level).env) }
    s.levels.size x = s.valueAt level x := by
  show Env.value? (Store.levelAt _ s.levels.size).env s.slots x = _
  rw [Store.levelAt_push,if_pos rfl]
  rfl

/-- At the level every rule is native, the names mean data or fragments, and the names of primitives
mean these or such values. -/
structure Standing (s : Store) (level : Nat) (names : List String) : Prop where
  inside : level < s.levels.size
  native : s.Native level
  bound : ∀ x ∈ names, ∃ v, s.valueAt level x = some v ∧ v.isStaged
  primitives : ∀ op : Primitive, ∃ v, s.valueAt level op.name = some v ∧ (v = .prim op ∨ v.isStaged)

namespace Standing

variable {s s' : Store} {level : Nat} {names names' : List String}

variable (standing : Standing s level names)

include standing

theorem keeps {count : Nat} (keeps : s.Keeps count s') (below : level < count) : Standing s' level names where
  inside := standing.inside.trans_le keeps.more
  native rule := by
    rw [keeps.levels level below]
    exact standing.native rule
  bound x member := by
    obtain ⟨v,found,staged⟩ := standing.bound x member
    exact ⟨v,keeps.valueAt below found,staged⟩
  primitives op := by
    obtain ⟨v,found,means⟩ := standing.primitives op
    exact ⟨v,keeps.valueAt below found,means⟩

theorem congr {level' : Nat} (inside : level' < s'.levels.size)
    (handlers : (s'.levelAt level').handlers = (s.levelAt level).handlers)
    (values : ∀ x, s'.valueAt level' x = s.valueAt level x) : Standing s' level' names where
  inside := inside
  native rule := by
    rw [handlers]
    exact standing.native rule
  bound x member := by
    rw [values]
    exact standing.bound x member
  primitives op := by
    rw [values]
    exact standing.primitives op

theorem scope : Standing { s with levels := s.levels.push ((s.levelAt level).scope (s.levelAt level).env) }
    s.levels.size names :=
  standing.congr (by simp) (by rw [Store.levelAt_push,if_pos rfl]; rfl) (s.valueAt_scope level)

theorem defined {entries : List (String × Value)} (defined : s.Defined level entries s')
    (staged : ∀ entry ∈ entries, entry.2.isStaged)
    (known : ∀ x ∈ names', x ∈ names ∨ x ∈ entries.map Prod.fst) : Standing s' level names' := by
  -- A name means what it was bound to last, which is data or a fragment, or what it meant before.
  have new {x : String} {v : Value} (found : entries.reverse.lookup x = some v) :
      s'.valueAt level x = some v ∧ v.isStaged := by
    refine ⟨defined.values x v (by rw [found]; rfl),?_⟩
    obtain ⟨l₁,l₂,same,_⟩ := lookup_eq_some_iff.mp found
    refine staged (x,v) (mem_reverse.mp ?_)
    rw [same]
    exact mem_append_right _ mem_cons_self
  have old {x : String} {v : Value} (absent : entries.reverse.lookup x = none)
      (found : s.valueAt level x = some v) : s'.valueAt level x = some v :=
    defined.values x v (by rw [absent]; exact found)
  refine ⟨by rw [defined.count]; exact standing.inside,?_,?_,?_⟩
  · intro rule
    rw [defined.handlers]
    exact standing.native rule
  · intro x member
    cases found : entries.reverse.lookup x with
    | some v => exact ⟨v,new found⟩
    | none =>
      rcases known x member with before | among
      · obtain ⟨v,value,staged⟩ := standing.bound x before
        exact ⟨v,old found value,staged⟩
      · obtain ⟨entry,listed,rfl⟩ := mem_map.mp among
        have absent := lookup_eq_none_iff.mp found entry (mem_reverse.mpr listed)
        simp at absent
  · intro op
    cases found : entries.reverse.lookup op.name with
    | some v => exact ⟨v,(new found).1,.inr (new found).2⟩
    | none =>
      obtain ⟨v,value,means⟩ := standing.primitives op
      exact ⟨v,old found value,means⟩

end Standing

/-- What is bound when the value of a binding is there: the earlier names by reference, if the value
is the first fragment, and the name itself. -/
def rebound (done : List (String × Value)) (staged : Bool) (name : String) (v : Value) : List (String × Value) :=
  (if v.isCode && !staged then done.map fun entry => (entry.1,.reference entry.1) else []) ++
    [(name,if staged || v.isCode then .reference name else v)]

theorem rebound_last (done : List (String × Value)) (staged : Bool) (name : String) (v : Value) :
    (rebound done staged name v).reverse.lookup name =
      some (if staged || v.isCode then .reference name else v) := by
  simp [rebound]

theorem lookup_reference (names : List String) (x : String) :
    (names.map fun name => (name,Value.reference name)).lookup x =
      if x ∈ names then some (.reference x) else none := by
  induction names with
  | nil => rfl
  | cons name names ih =>
    rw [map_cons,lookup_cons,ih]
    by_cases same : x = name
    · simp [same]
    · simp [same,beq_false_of_ne same]

theorem rebound_earlier (done : List (String × Value)) (staged : Bool) {x : String} (v : Value) (other : x ≠ name) :
    (rebound done staged name v).reverse.lookup x =
      if (v.isCode && !staged) ∧ x ∈ done.map Prod.fst then some (.reference x) else none := by
  have named : (done.map fun entry => (entry.1,Value.reference entry.1)) =
      (done.map Prod.fst).map fun name => (name,.reference name) := by
    rw [map_map]
    rfl
  have skip : (rebound done staged name v).reverse.lookup x = List.lookup x (List.reverse
      (if v.isCode && !staged then done.map fun entry => (entry.1,.reference entry.1) else [])) := by
    simp [rebound,lookup_cons,beq_false_of_ne other]
  rw [skip,named]
  by_cases opens : (v.isCode && !staged) = true
  · rw [if_pos opens,← map_reverse,lookup_reference]
    simp only [opens,true_and,mem_reverse]
  · rw [if_neg opens,if_neg fun both => opens both.1]
    rfl

theorem rebound_staged {done : List (String × Value)} {staged : Bool} (value : v.isStaged) :
    ∀ entry ∈ rebound done staged name v, entry.2.isStaged := by
  intro entry member
  rcases mem_append.mp member with earlier | last
  · split at earlier
    · obtain ⟨_,_,rfl⟩ := mem_map.mp earlier
      rfl
    · cases earlier
  · cases mem_singleton.mp last
    dsimp only
    split
    · rfl
    · exact value

section Binding

variable {s s' : Store} {fuel level : Nat} {done : List (String × Value)} {staged : Bool}

theorem Ran.refer (material : ∀ entry ∈ done, entry.2.isMaterial) {result : Unit}
    (inside : level < s.levels.size) (ran : Ran (refer level done) s result s') :
    s.Defined level (done.map fun entry => (entry.1,.reference entry.1)) s' := by
  induction done generalizing s with
  | nil =>
    obtain ⟨_,rfl⟩ := ran.pure
    exact .refl level _
  | cons entry done ih =>
    obtain ⟨name,value⟩ := entry
    rw [refer_cons,if_pos (material _ mem_cons_self)] at ran
    obtain ⟨_,mid,first,rest⟩ := ran.bind
    obtain ⟨named,start,making,defining⟩ := first.bind
    obtain ⟨rfl,made⟩ := making.reference
    have defined := (made level).trans (defining.defined (by rw [(made level).count]; exact inside))
    exact defined.trans (ih (fun entry member => material entry (.tail _ member))
      (by rw [defined.count]; exact inside) rest)

variable {b : Binding} {form : LetForm} {rest : List Binding}

theorem Ran.bindEach_cons {result : List Value × Bool} (material : ∀ entry ∈ done, entry.2.isMaterial)
    (ran : Ran (bindEach (eval fuel) level done staged (b :: rest)) s result s') :
    ∃ v first, Evaluated level b.init s v first ∧ (level < first.levels.size → v.isMaterial → ∃ next,
        first.Defined level (rebound done staged b.name v) next ∧
        Ran (bindEach (eval fuel) level (done ++ [(b.name,v)]) (staged || v.isCode) rest) next result s') := by
  rw [bindEach_step] at ran
  obtain ⟨v,first,evaluating,referring⟩ := ran.bind
  refine ⟨v,first,⟨fuel,evaluating⟩,fun inside shown => ?_⟩
  obtain ⟨_,second,referred,naming⟩ := referring.bind
  obtain ⟨bound,third,named,defining⟩ := naming.bind
  obtain ⟨_,next,defined,continuing⟩ := defining.bind
  have earlier : first.Defined level
      (if v.isCode && !staged then done.map fun entry => (entry.1,.reference entry.1) else [])
      second := by
    split at referred
    · next opens =>
      rw [if_pos opens]
      exact referred.refer material inside
    · next stays =>
      rw [if_neg stays]
      obtain ⟨_,rfl⟩ := referred.pure
      exact .refl level _
  have last : second.Defined level [] third ∧ bound = if staged || v.isCode then .reference b.name else v := by
    rw [shown,Bool.and_true] at named
    split at named
    · next on =>
      obtain ⟨rfl,made⟩ := named.reference
      exact ⟨made level,(if_pos on).symm⟩
    · next off =>
      obtain ⟨rfl,rfl⟩ := named.pure
      exact ⟨.refl level _,(if_neg off).symm⟩
  obtain ⟨still,rfl⟩ := last
  have inside' : level < third.levels.size := by
    rw [still.count,earlier.count]
    exact inside
  exact ⟨next,earlier.trans (still.trans (defined.defined inside')),continuing⟩

structure Done (form : LetForm) (done : List (String × Value)) : Prop where
  names : done.map Prod.fst = form.names.take done.length
  staged : ∀ entry ∈ done, entry.2.isStaged

theorem Done.nil (form : LetForm) : Done form [] := ⟨rfl,by simp⟩

theorem Done.snoc (before : Done form done) (found : form.bindings[done.length]? = some b)
    (value : v.isStaged) : Done form (done ++ [(b.name,v)]) where
  names := by
    rw [map_append,before.names,length_append,length_singleton,take_add_one,LetForm.name_at found]
    rfl
  staged entry member := by
    rcases mem_append.mp member with earlier | last
    · exact before.staged entry earlier
    · cases mem_singleton.mp last
      exact value

theorem Done.advance {result : List Value × Bool} (before : Done form done)
    (found : form.bindings[done.length]? = some b)
    (init : ∀ {v : Value} {mid : Store}, Evaluated level b.init s v mid → s.Keeps s.levels.size mid ∧ v.isStaged)
    (standing : Standing s level (form.names.take done.length ++ names))
    (ran : Ran (bindEach (eval fuel) level done staged (b :: rest)) s result s') :
    ∃ v first next, Evaluated level b.init s v first ∧ s.Keeps s.levels.size first ∧
      v.isStaged ∧ first.Defined level (rebound done staged b.name v) next ∧
      Standing next level (form.names.take (done.length + 1) ++ names) ∧
      Ran (bindEach (eval fuel) level (done ++ [(b.name,v)]) (staged || v.isCode) rest) next result s' := by
  obtain ⟨v,first,evaluated,continuing⟩ := Ran.bindEach_cons
    (fun entry member => isStaged_material (before.staged entry member)) ran
  obtain ⟨keeps,value⟩ := init evaluated
  have standing' := standing.keeps keeps standing.inside
  obtain ⟨next,defined,continuing⟩ := continuing standing'.inside (isStaged_material value)
  refine ⟨v,first,next,evaluated,keeps,value,defined,?_,continuing⟩
  apply standing'.defined defined (rebound_staged value)
  intro x member
  rw [take_add_one,LetForm.name_at found] at member
  rcases mem_append.mp member with own | outer
  · rcases mem_append.mp own with earlier | last
    · exact .inl (mem_append_left _ earlier)
    · cases mem_singleton.mp last
      exact .inr (by simp [rebound])
  · exact .inl (mem_append_right _ outer)

theorem Done.keeps {values : List Value} {staged' : Bool} (before : Done form done)
    (inits : ∀ (i : Nat) b, form.bindings[i]? = some b → ∀ {s : Store} {v : Value} {mid : Store},
      Standing s level (form.names.take i ++ names) → Evaluated level b.init s v mid →
        s.Keeps s.levels.size mid ∧ v.isStaged)
    (standing : Standing s level (form.names.take done.length ++ names))
    (ran : Ran (bindEach (eval fuel) level done staged (form.bindings.drop done.length)) s
      (values,staged') s') : s.Keeps level s' ∧ Standing s' level (form.names ++ names) := by
  generalize left : form.bindings.drop done.length = rest at ran
  induction rest generalizing s done staged with
  | nil =>
    obtain ⟨_,rfl⟩ := ran.pure
    refine ⟨.refl _ _,?_⟩
    rwa [LetForm.take_names (drop_eq_nil_iff.mp left)] at standing
  | cons b rest ih =>
    obtain ⟨found,following⟩ := LetForm.binding_next left
    obtain ⟨v,first,next,evaluated,keeps,value,defined,standing',continuing⟩ :=
      before.advance found (fun ran => inits _ b found standing ran) standing ran
    have more : (done ++ [(b.name,v)]).length = done.length + 1 := by simp
    obtain ⟨keeps',last⟩ := ih (before.snoc found value) (more ▸ standing') (by rwa [more]) continuing
    refine ⟨(keeps.mono ?_).trans (defined.keeps.trans keeps'),last⟩
    exact standing.inside.le

end Binding

theorem EvaluatedEach.keeps {es vs : List Value}
    (each : ∀ e ∈ es, ∀ {s : Store} {v : Value} {s' : Store}, Standing s level names →
      Evaluated level e s v s' → s.Keeps s.levels.size s' ∧ v.isStaged)
    (standing : Standing s level names) (ran : EvaluatedEach level es s vs s') :
    s.Keeps s.levels.size s' ∧ ∀ v ∈ vs, v.isStaged := by
  induction ran with
  | nil => exact ⟨.refl _ _,by simp⟩
  | cons first rest ih =>
    obtain ⟨keeps,value⟩ := each _ mem_cons_self standing first
    obtain ⟨keeps',values⟩ := ih (fun e member => each e (.tail _ member)) (standing.keeps keeps standing.inside)
    exact ⟨keeps.chain keeps',by simpa [value] using values⟩

theorem Standing.applied {fuel : Nat} (standing : Standing s level names) {op : Primitive}
    {procedure : Value} {args : List Value} {mid : Store}
    (found : s.valueAt level op.name = some procedure)
    (ran : Ran (applyTo (eval fuel) level procedure args) mid v s') :
    op.apply args mid.next = .ok (v,s'.next) ∧ s' = { mid with next := s'.next } := by
  obtain ⟨w,same,means⟩ := standing.primitives op
  cases found.symm.trans same
  rcases means with rfl | staged
  · exact Ran.primitive ran
  · cases procedure with
    | prim | closure => cases staged
    | _ => exact ran.fault.elim

theorem Store.keeps_push (s : Store) (l : Level) : s.Keeps s.levels.size { s with levels := s.levels.push l } where
  more := by simp
  levels i below := by rw [s.levelAt_push i l,if_neg below.ne]
  slots _ _ held := held

theorem Store.Prepared.valueAt (prepared : s.Prepared level releases s') (x : String) :
    s'.valueAt level x = s.valueAt level x := by
  obtain ⟨known,here⟩ := prepared.rest
  show (s'.levelAt level).env.value? s'.slots x = (s.levelAt level).env.value? s.slots x
  rw [here,prepared.slots]

theorem Store.Prepared.standing (prepared : s.Prepared level releases s')
    (standing : Standing s level names) : Standing s' level names := by
  obtain ⟨known,here⟩ := prepared.rest
  exact standing.congr (by rw [prepared.count]; exact standing.inside) (by rw [here]) prepared.valueAt

/-- Evaluation of a stageable expression has no effect on what is there, and yields data or a
fragment. -/
theorem Stageable.keeps {admits : (String → Prop) → List String → LetForm → Prop}
    {refs : String → Prop} {e : Value} (stageable : Stageable admits refs names e)
    (standing : Standing s level names) (ran : Evaluated level e s v s') :
    s.Keeps s.levels.size s' ∧ v.isStaged := by
  induction stageable generalizing level s v s' with
  | int n =>
    obtain ⟨rfl,rfl⟩ := ran.literal standing.native (.inr ⟨n,rfl⟩)
    exact ⟨.refl _ _,rfl⟩
  | nil =>
    obtain ⟨rfl,rfl⟩ := ran.literal standing.native (.inl rfl)
    exact ⟨.refl _ _,rfl⟩
  | name known =>
    obtain ⟨found,rfl⟩ := ran.symbol standing.native
    obtain ⟨w,same,staged⟩ := standing.bound _ known
    cases found.symm.trans same
    exact ⟨.refl _ _,staged⟩
  | quote items data =>
    obtain ⟨rfl,rfl⟩ := ran.quote items
    exact ⟨.refl _ _,by simp [isStaged,data]⟩
  | lift items _ ih =>
    obtain ⟨u,evaluated,rfl | ⟨_,c,_,rfl⟩⟩ := ran.lift items
    · exact ih standing evaluated
    · exact ⟨(ih standing evaluated).1,rfl⟩
  | choice items _ _ _ ihTest ihTrue ihFalse =>
    obtain ⟨t,mid,tested,⟨_,chosen⟩ | ⟨_,_,_,_,_,next,_,⟨_,first,_⟩,⟨_,second,_⟩,_,_,rfl⟩⟩ :=
      ran.choice standing.native items
    all_goals
      have keeps := (ihTest standing tested).1
      have standing' := standing.keeps keeps standing.inside
    · split at chosen
      · obtain ⟨keeps',staged⟩ := ihTrue standing' chosen
        exact ⟨keeps.chain keeps',staged⟩
      · obtain ⟨keeps',staged⟩ := ihFalse standing' chosen
        exact ⟨keeps.chain keeps',staged⟩
    · have keeps' := (ihTrue standing' first).1
      have keeps'' := (ihFalse (standing'.keeps keeps' standing'.inside) second).1
      exact ⟨(keeps.chain keeps').chain keeps'',rfl⟩
  | call op _ items _ ih =>
    obtain ⟨procedure,values,mid,fuel,found,each,applying⟩ := ran.call standing.native items
    obtain ⟨keeps,staged⟩ := each.keeps (fun a member _ _ _ => ih a member) standing
    obtain ⟨applied,moved⟩ := standing.applied found applying
    refine ⟨?_,Primitive.apply_isStaged staged applied⟩
    rw [moved]
    exact ⟨keeps.more,keeps.levels,keeps.slots⟩
  | block read plain _ _ _ ihInits ihBody =>
    obtain ⟨fuel,values,staged,mid,bound,going⟩ := ran.block standing.native read plain
    obtain ⟨keeps,standing'⟩ := (Done.nil _).keeps (fun i b found _ _ _ => ihInits i b found) standing.scope bound
    have start := (s.keeps_push _).trans keeps
    rcases going with ⟨_,evaluated⟩ | ⟨_,compiling⟩
    · obtain ⟨keeps',staged⟩ := ihBody standing' evaluated
      exact ⟨start.trans (keeps'.mono start.more),staged⟩
    · obtain ⟨_,_,_,_,_,prepared,evaluated,_,rfl⟩ := compiling.compileBlock standing'.inside
      have keeps' := (ihBody (prepared.standing standing') evaluated).1
      have ready := start.trans prepared.keeps
      exact ⟨ready.trans (keeps'.mono ready.more),rfl⟩

end StagedLisp
