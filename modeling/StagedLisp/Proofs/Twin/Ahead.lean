import StagedLisp.Proofs.Eval.Compilation
import StagedLisp.Proofs.Twin.Rules

/-! The level above a root, made ahead of its first use. Forms give the same results with and without it,
as long as no scope asks for a level above before the root itself has one: a scope then gets a level of
its own, which the root and later scopes do not share. -/
namespace StagedLisp

open List (Forall₂)

/-- Evaluates forms one after the other. An error is the result of its form, and the forms after it are
evaluated all the same. -/
def Eval.outcomes (level : Nat) : List Value → Store → List (Result Value) × Store
  | [],s => ([],s)
  | form :: forms,s =>
    let ran := (evaluate level form).run.run s
    let rest := outcomes level forms ran.2
    (ran.1 :: rest.1,rest.2)

theorem Store.rootFirst_iff (s : Store) (r : Nat) : s.RootFirst r ↔ ∀ k < s.levels.size, r < k →
    (s.levelAt k).parent.isSome → (s.levelAt r).parent.any (· ≤ k) := by
  constructor
  · intro first k _ younger above
    obtain ⟨q,above⟩ := Option.isSome_iff_exists.mp above
    obtain ⟨p,before,risen⟩ := first k q younger above
    rw [risen]
    exact decide_eq_true before
  · intro each k q younger above
    have found := each k (Twin.parent_inside above) younger (by rw [above]; rfl)
    cases risen : (s.levelAt r).parent with
    | none =>
      rw [risen] at found
      cases found
    | some p =>
      rw [risen] at found
      exact ⟨p,of_decide_eq_true found,rfl⟩

instance Store.rootFirstDecidable (s : Store) (r : Nat) : Decidable (s.RootFirst r) :=
  decidable_of_iff' _ (s.rootFirst_iff r)

/-- A form that is evaluated one level up makes that level and does nothing else, if it is a literal. -/
theorem Eval.run_meta_literal {s : Store} {i : Nat} {e : Value} {k : Int64}
    (form : IsForm "EM" [.int k] e) (unrisen : (s.levelAt i).parent = none)
    (present : i < s.levels.size) : ((evaluate i e).run.run s).2 = s.raised i := by
  have native : ((s.raised i).levelAt s.levels.size).handlers.get .literal = .native := by
    rw [s.levelAt_raised_new present]
    unfold Level.root
    rfl
  have literal : (eval 199 s.levels.size (.int k)).run.run (s.raised i) = (.ok (.int k),s.raised i) := by
    show (dispatch .literal (pure (.int k)) (eval 197) s.levels.size (.int k)).run.run (s.raised i) = _
    unfold dispatch
    rw [run_bind_ok (show (Eval.level s.levels.size).run.run (s.raised i) =
      (.ok ((s.raised i).levelAt s.levels.size),s.raised i) from rfl),native]
    rfl
  have fixed : fixedRule? (eval 199) i "EM" = some (metaForm (eval 199) i) := rfl
  have rule := evalForm_fixed (eval 199) (eval 198) i form.head fixed
  rw [form.parts,ofResult_ok_bind] at rule
  obtain ⟨_,_,rfl,_⟩ := formItems_cons form
  show (((evalForm (eval 199) (eval 198) i _).adapt _).run.run s).2 = _
  rw [run_adapt,rule]
  show ((Eval.parent i >>= fun above => eval 199 above (.int k)).run.run s).2 = _
  rw [run_bind_ok (run_parent_none unrisen),literal]

namespace Twin

theorem datum_expr {early : Option (Nat × Nat)} {n : Numbering} {e : Value} (datum : e.isDatum) :
    Expr ⟨fun _ => True,early,false⟩ n e := by
  induction e with
  | int n => exact ⟨.int n,trivial⟩
  | sym x => exact ⟨.sym x,trivial⟩
  | nil => exact ⟨.nil,trivial⟩
  | pair cell head tail first second =>
    obtain ⟨here,there⟩ := Bool.and_eq_true_iff.mp datum
    exact ⟨.pair cell (first here).like (second there).like,(first here).spelled,(second there).spelled⟩
  | _ => cases datum

/-- A new root, and what is in its slots. -/
def rootNumbering (s : Store) : Numbering :=
  Numbering.withRoot ⟨fun _ _ => False,fun _ _ => False,fun _ _ => False⟩ s.slots.size s.slots.size
    s.levels.size s.levels.size

section Root

variable (s : Store)

theorem size_addRoot : s.addRoot.2.levels.size = s.levels.size + 1 := by
  rw [s.addRoot_eq,Array.size_push]

theorem slots_addRoot : s.addRoot.2.slots = s.slots ++ (Primitive.all.map Value.prim).toArray := by
  rw [s.addRoot_eq]

theorem slots_root : (s.addRoot.2.raised s.levels.size).slots =
    s.addRoot.2.slots ++ (Primitive.all.map Value.prim).toArray := by
  rw [s.addRoot.2.raised_eq]

theorem count_addRoot : s.addRoot.2.slots.size = s.slots.size + Primitive.all.length := by
  simp [slots_addRoot]

theorem root_pristine : Pristine (rootNumbering s) (s.addRoot.2.raised s.levels.size)
    (s.levels.size + 1) s.addRoot.2.slots.size := by
  have size := size_addRoot s
  have count := count_addRoot s
  refine ⟨?_,fun k op found => ?_,?_,?_⟩
  · rw [← size]
    exact s.addRoot.2.levelAt_raised_new (by omega)
  · rw [slots_root]
    exact getElem?_append_prims _ found
  · rintro a b (⟨⟨⟩⟩ | ⟨k,short,rfl,rfl⟩)
    omega
  · rintro i (⟨⟨⟩⟩ | ⟨_,same⟩)
    omega

theorem root_early : Early (rootNumbering s) s.addRoot.2 (s.addRoot.2.raised s.levels.size)
    s.levels.size (s.levels.size + 1) := by
  have size := size_addRoot s
  have count := count_addRoot s
  have grown := s.addRoot.2.size_raised s.levels.size
  refine ⟨?_,?_,by omega,by omega,fun _ => ⟨_,root_pristine s⟩⟩
  · rintro a b (⟨⟨⟩⟩ | ⟨k,short,rfl,rfl⟩)
    rw [slots_root,Array.size_append]
    omega
  · rintro i j (⟨⟨⟩⟩ | ⟨rfl,rfl⟩)
    omega

theorem root_slot {a b : Nat} (here : (rootNumbering s).slots a b) :
    Option.Rel (Values ⟨fun _ => True,some (s.levels.size,s.levels.size + 1),false⟩ (rootNumbering s))
      s.addRoot.2.slots[a]? (s.addRoot.2.raised s.levels.size).slots[b]? := by
  obtain ⟨⟨⟩⟩ | ⟨k,short,rfl,rfl⟩ := here
  have count := count_addRoot s
  rw [slots_root,Array.getElem?_append,if_pos (by omega),slots_addRoot,
    getElem?_append_prims _ (List.getElem?_eq_getElem short)]
  exact .some (.prim _)

theorem root_level {i j : Nat} (here : (rootNumbering s).levels i j) :
    LevelLike ⟨fun _ => True,some (s.levels.size,s.levels.size + 1),false⟩ (rootNumbering s)
      (s.addRoot.2.raised s.levels.size) ((rootNumbering s).seen i) (s.addRoot.2.levelAt i)
      ((s.addRoot.2.raised s.levels.size).levelAt j) := by
  obtain ⟨⟨⟩⟩ | ⟨rfl,rfl⟩ := here
  have size := size_addRoot s
  have root : s.addRoot.2.levelAt s.levels.size = Level.root s.slots.size := by
    rw [s.levelAt_addRoot,if_pos rfl]
  have like : LevelLike ⟨fun _ => True,some (s.levels.size,s.levels.size + 1),false⟩ (rootNumbering s)
      (s.addRoot.2.raised s.levels.size) ((rootNumbering s).seen s.levels.size)
      (Level.root s.slots.size) (Level.root s.slots.size) :=
    (Stores.rootLike _ _ _ s.slots.size s.slots.size).mono
      (Numbering.within_withLevel s.levels.size s.levels.size) (fun _ _ _ _ _ _ => id)
      fun _ _ _ => trivial
  rw [s.addRoot.2.levelAt_raised_old (by omega) (by omega),if_pos rfl,root,size]
  refine ⟨⟨?_,like.handlers,like.staging,like.known⟩,like.env,like.releases⟩
  rw [Level.root_parent]
  exact .early rfl

theorem raised_stores :
    Stores ⟨fun _ => True,some (s.levels.size,s.levels.size + 1),false⟩ (rootNumbering s) s.addRoot.2
      (s.addRoot.2.raised s.levels.size) := by
  refine ⟨?_,?_,?_,?_,?_,?_,fun _ _ => root_slot s,fun _ _ => root_level s,fun exact => ?_,
    fun loose => ?_,fun r m early => ?_⟩
  · rw [s.addRoot.2.raised_eq]
  · rw [s.addRoot.2.raised_eq]
  · rw [s.addRoot.2.raised_eq]
  · rw [s.addRoot.2.raised_eq]
  · rintro a b a' b' (⟨⟨⟩⟩ | ⟨k,_,rfl,rfl⟩) (⟨⟨⟩⟩ | ⟨k',_,rfl,rfl⟩)
    exact Iff.rfl
  · rintro i j i' j' (⟨⟨⟩⟩ | ⟨rfl,rfl⟩) (⟨⟨⟩⟩ | ⟨rfl,rfl⟩)
    exact Iff.rfl
  · cases exact
  · cases loose
  · cases early
    exact root_early s

end Root

theorem outcomes_irreversible (σ : Setting) (level : Nat) (forms : List Value) (s : Store)
    (orderly : Orderly σ (Eval.outcomes level forms s).2) : Orderly σ s := by
  induction forms generalizing s with
  | nil => exact orderly
  | cons form forms ih => exact (eval_twins σ depthLimit).keeps level form s (ih _ orderly)

theorem outcomes_matched {σ : Setting} {n : Numbering} {s t : Store} {i j : Nat} {forms : List Value}
    (poised : Poised σ n s t i j) (strict : σ.loose = false)
    (exprs : ∀ form ∈ forms, Expr σ n form) (orderly : Orderly σ (Eval.outcomes i forms s).2) :
    Forall₂ (Result.Alike fun v w => v.text = w.text) (Eval.outcomes i forms s).1 (Eval.outcomes j forms t).1 := by
  induction forms generalizing n s t with
  | nil => exact .nil
  | cons form forms ih =>
    have loose {P : Prop} (loose : σ.loose = true) : P := Bool.noConfusion (strict.symm.trans loose)
    have posed : Posed σ n s t i j form := ⟨poised,exprs form List.mem_cons_self,loose,loose⟩
    have runs := (eval_twins σ depthLimit).matched posed
    obtain ⟨n',evolves,results⟩ := runs (outcomes_irreversible σ i forms _ orderly)
    refine .cons (results.mono fun v w like => like.text) ?_
    exact ih (poised.evolve evolves) (fun form member => (exprs form (.tail _ member)).mono evolves.within) orderly

end Twin

open Twin in
/-- Forms give the same texts and errors at a new root as at one where `(EM 0)` has made the level above
it, if at the end no scope has got a level above before the root. -/
theorem level_above_unseen (s : Store) {e : Value} (zero : IsForm "EM" [.int 0] e)
    (forms : List Value) (data : ∀ form ∈ forms, form.isDatum)
    (first : (Eval.outcomes s.addRoot.1 forms s.addRoot.2).2.RootFirst s.addRoot.1) :
    Forall₂ (Result.Alike fun v w => v.text = w.text)
      (Eval.outcomes s.addRoot.1 forms s.addRoot.2).1
      (Eval.outcomes s.addRoot.1 forms ((evaluate s.addRoot.1 e).run.run s.addRoot.2).2).1 := by
  have root : s.addRoot.1 = s.levels.size := rfl
  have unrisen : (s.addRoot.2.levelAt s.levels.size).parent = none := by
    rw [s.levelAt_addRoot,if_pos rfl,Level.root_parent]
  have present : s.levels.size < s.addRoot.2.levels.size := by
    rw [size_addRoot]
    exact Nat.lt_succ_self _
  rw [root] at first ⊢
  rw [Eval.run_meta_literal zero unrisen present]
  refine outcomes_matched ⟨raised_stores s,?_⟩ rfl
    (fun form member => datum_expr (data form member)) ?_
  · refine ⟨.inr ⟨rfl,rfl⟩,fun r m early _ _ => ?_⟩
    cases early
    exact .inl rfl
  · intro r m early
    cases early
    exact first

/-- `(EM 0)` -/
def metaZero : Value := .ofParts [.sym "EM",.int 0]

/-- `(EM (set-meta! y 5))` -/
def defineAbove : Value :=
  .ofParts [.sym "EM",.ofParts [.sym "set-meta!",.sym "y",.int 5]]

/-- `(let ((a (EM y))) (+ a 1))` -/
def readAbove : Value :=
  .ofParts [.sym "let",.ofParts [.ofParts [.sym "a",.ofParts [.sym "EM",.sym "y"]]],
    .ofParts [.sym "+",.sym "a",.int 1]]

theorem defined_above_unseen :
    IsForm "EM" [.int 0] metaZero ∧ (∀ form ∈ [defineAbove,readAbove,.sym "a"], form.isDatum) ∧
    (Eval.outcomes 0 [defineAbove,readAbove,.sym "a"] ({} : Store).addRoot.2).2.RootFirst 0 ∧
    Forall₂ (Result.Alike fun v w => v.text = w.text)
      (Eval.outcomes 0 [defineAbove,readAbove,.sym "a"] ({} : Store).addRoot.2).1
      (Eval.outcomes 0 [defineAbove,readAbove,.sym "a"]
        ((evaluate 0 metaZero).run.run ({} : Store).addRoot.2).2).1 := by
  have zero : IsForm "EM" [.int 0] metaZero := rfl
  have data : ∀ form ∈ [defineAbove,readAbove,.sym "a"], form.isDatum := by decide
  have first : (Eval.outcomes 0 [defineAbove,readAbove,.sym "a"]
      ({} : Store).addRoot.2).2.RootFirst 0 := by decide +kernel
  exact ⟨zero,data,first,level_above_unseen {} zero _ data first⟩

def Result.text : Result Value → String
  | .ok v => v.text
  | .error e => e.message

/-- `(let ((a (EM (set-meta! y 5)))) a)` -/
def defineFromScope : Value :=
  .ofParts [.sym "let",.ofParts [.ofParts [.sym "a",defineAbove]],.sym "a"]

/-- A scope that goes up first binds the name at a level of its own, where the root does not find it. -/
theorem scope_level_seen :
    (Eval.outcomes 0 [defineFromScope,.ofParts [.sym "EM",.sym "y"]]
      ({} : Store).addRoot.2).1.map Result.text = ["y","Unbound symbol: y"] ∧
    (Eval.outcomes 0 [defineFromScope,.ofParts [.sym "EM",.sym "y"]]
      ((evaluate 0 metaZero).run.run ({} : Store).addRoot.2).2).1.map Result.text = ["y","5"] := by
  decide +kernel

end StagedLisp
