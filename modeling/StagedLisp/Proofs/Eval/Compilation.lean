import StagedLisp.Proofs.Eval.Bindings

/-! Compilation preserves values. A stageable expression evaluated without staging and the same
expression evaluated with staging agree, provided that the identifiers of names do not get in the
way. -/
namespace StagedLisp

open List LetForm Primitive
open Support (Contents)

section Forms

variable {names : List String} {objects : String → Contents} {refs most : String → Prop}
  {t t' s s' : Store} {a b : Nat} {e v w : Value} (tied : Tied t b s a names objects refs)

include tied

theorem EvaluatedEach.agrees {es vs ws : List Value} (within : ∀ x, refs x → most x)
    (staged : ∀ e ∈ es, Staged most names e)
    (looks : ∀ p ∈ es, ∀ y, LooksUp p y → LooksUp e y)
    (stages : ∀ p ∈ es, Stages refs p → Stages refs e)
    (now : EvaluatedEach b es t vs t') (later : EvaluatedEach a es s ws s') :
    List.Forall₂ (Agrees (Covers names objects refs (s.levelAt a).releases e)) vs ws ∧
      (ws.any Value.isCode → Stages refs e) := by
  induction now generalizing s ws with
  | nil =>
    cases later
    exact ⟨.nil,by simp⟩
  | cons first rest ih =>
    cases later with
    | cons first' rest' =>
      have init := staged _ mem_cons_self
      have keeps := (init.stageable.keeps tied.now first).1
      have keeps' := (init.stageable.keeps tied.later first').1
      obtain ⟨others,code⟩ := ih (tied.keeps keeps keeps' tied.now.inside tied.later.inside)
        (fun e member => staged e (.tail _ member))
        (fun e member => looks e (.tail _ member))
        (fun e member => stages e (.tail _ member)) rest'
      rw [keeps'.levels a tied.later.inside] at others
      obtain ⟨agrees,code'⟩ := init.simulated within tied first first'
      refine ⟨.cons ?_ others,?_⟩
      · exact agrees.mono fun scope covers => covers.part (looks _ mem_cons_self)
      · rw [any_cons,Bool.or_eq_true]
        exact fun either => either.elim (stages _ mem_cons_self ∘ code') code

theorem choice_agrees {test onTrue onFalse : Value} (items : IsForm "if" [test,onTrue,onFalse] e)
    (within : ∀ x, refs x → most x) (tests : Staged most names test)
    (first : Staged most names onTrue) (second : Staged most names onFalse)
    (now : Evaluated b e t v t') (later : Evaluated a e s w s') :
    Agrees (Covers names objects refs (s.levelAt a).releases e) v w ∧ (w.isCode → Stages refs e) := by
  have part {p : Value} (member : p ∈ [test,onTrue,onFalse]) (y : String) (looks : LooksUp p y) :
      LooksUp e y := items.looks (mem_map_of_mem member) y looks
  have stages {p : Value} (member : p ∈ [test,onTrue,onFalse]) (staged : Stages refs p) :
      Stages refs e := items.stages (mem_map_of_mem member) (mem_map_of_mem member) staged
  obtain ⟨u,mid,tested,chosen⟩ := now.choice tied.now.native items
  obtain ⟨u',mid',tested',chosen'⟩ := later.choice tied.later.native items
  obtain ⟨⟨data,o,tree,stands⟩,code⟩ := tests.simulated within tied tested tested'
  have keeps := (tests.stageable.keeps tied.later tested').1
  have tied' := tied.keeps (tests.stageable.keeps tied.now tested).1 keeps tied.now.inside tied.later.inside
  have same : (mid'.levelAt a).releases = (s.levelAt a).releases := by
    rw [keeps.levels a tied.later.inside]
  rcases chosen with ⟨_,chosen⟩ | ⟨_,_,_,_,_,_,rfl,_⟩
  swap
  · cases data
  rw [← tree_isTrue tree] at chosen
  rcases stands with ⟨data',tree'⟩ | ⟨c,rfl,computes⟩
  · -- The condition is known in both runs, and is the same.
    rcases chosen' with ⟨_,chosen'⟩ | ⟨_,_,_,_,_,_,rfl,_⟩
    · rw [← tree_isTrue tree'] at chosen'
      rw [← same]
      split at chosen
      · next yes =>
        rw [if_pos yes] at chosen'
        obtain ⟨agrees,code⟩ := first.simulated within tied' chosen chosen'
        exact ⟨agrees.mono fun scope covers => covers.part (part (by simp)),
          fun staged => stages (by simp) (code staged)⟩
      · next no =>
        rw [if_neg no] at chosen'
        obtain ⟨agrees,code⟩ := second.simulated within tied' chosen chosen'
        exact ⟨agrees.mono fun scope covers => covers.part (part (by simp)),
          fun staged => stages (by simp) (code staged)⟩
    · cases data'
  · -- Otherwise both branches are evaluated, and one of them computes the value.
    rcases chosen' with ⟨plain,_⟩ | ⟨_,c₁,c₂,d₁,d₂,next,known,⟨v₁,onTrue',lifted₁⟩,
      ⟨v₂,onFalse',lifted₂⟩,dropped₁,dropped₂,rfl⟩
    · cases plain
    cases known
    refine ⟨?_,fun _ => stages (by simp) (code rfl)⟩
    have keeps₁ := (first.stageable.keeps tied'.later onTrue').1
    have tied'' := tied'.keeps (.refl _ _) keeps₁ tied'.now.inside tied'.later.inside
    have keeps₂ := (second.stageable.keeps tied''.later onFalse').1
    have same₁ : (next.levelAt a).releases = (s.levelAt a).releases := by
      rw [keeps₁.levels a tied'.later.inside,same]
    have same₂ : (s'.levelAt a).releases = (s.levelAt a).releases := by
      rw [keeps₂.levels a tied''.later.inside,same₁]
    split at chosen
    · next yes =>
      obtain ⟨⟨data',o',tree',stands⟩,_⟩ := first.simulated within tied' chosen onTrue'
      rw [same] at stands
      refine ⟨data',o',tree',.inr ⟨_,rfl,fun scope covers => ?_⟩⟩
      rw [Code.value?_conditional (computes scope (covers.part (part (by simp)))),if_pos yes,
        dropped₁.value (by rw [same₂]; exact covers.flags)]
      exact stands.lift lifted₁ (covers.part (part (by simp)))
    · next no =>
      obtain ⟨⟨data',o',tree',stands⟩,_⟩ := second.simulated within tied'' chosen onFalse'
      rw [same₁] at stands
      refine ⟨data',o',tree',.inr ⟨_,rfl,fun scope covers => ?_⟩⟩
      rw [Code.value?_conditional (computes scope (covers.part (part (by simp)))),if_neg no,
        dropped₂.value (by rw [same₂]; exact covers.flags)]
      exact stands.lift lifted₂ (covers.part (part (by simp)))

theorem Tied.prepared {releases : List BranchRelease} (prepared : s.Prepared a releases s') :
    Tied t b s' a names objects refs where
  now := tied.now
  later := prepared.standing tied.later
  off := tied.off
  values x member := by
    rw [prepared.valueAt]
    exact tied.values x member

theorem Bound.start (form : LetForm) : Bound form names objects refs t.levels.size s.levels.size [] [] [] false
      { t with levels := t.levels.push ((t.levelAt b).scope (t.levelAt b).env) }
      { s with levels := s.levels.push ((s.levelAt a).scope (s.levelAt a).env) } where
  listed := rfl
  before := .nil form
  after := .nil form
  count := rfl
  count' := rfl
  tied := by
    have objects' : rebind objects [] = objects := rfl
    rw [length_nil,take_zero,nil_append,objects']
    exact tied.scope.mono fun x refers => by simpa [rerefer] using refers
  compiled := by simp
  initials := by
    intro i _ _ _ _ _ value
    cases value
  quiet := by
    rw [Store.levelAt_push,if_pos rfl]
    rfl

theorem block_agrees {form : LetForm} (read : ofValue e = .ok form)
    (plain : form.kind = .plain) (within : ∀ x, refs x → most x)
    (apart : form.KeepsApart most names)
    (inits : ∀ (i : Nat) binding, form.bindings[i]? = some binding →
      Staged (rerefer most (form.names.take i) (form.CompiledBefore most i))
        (form.names.take i ++ names) binding.init)
    (simulated : Simulated (rerefer most form.names (form.CompiledBefore most form.bodyIndex)) (form.names ++ names)
      form.body)
    (now : Evaluated b e t v t') (later : Evaluated a e s w s') :
    Agrees (Covers names objects refs (s.levelAt a).releases e) v w ∧ (w.isCode → Stages refs e) := by
  have distinct := (ofValue_ok read).1
  obtain ⟨parts,items,listed⟩ := ofValue_form read
  have shown := ofParts_view items listed
  have looks (i : Nat) (inside : i ≤ form.bodyIndex) (y : String) (outer : y ∉ form.names.take i)
      (looking : LooksUp (form.statement i) y) : LooksUp e y := by
    rcases looks_statement (statement_at inside) looking with own | out
    · rw [visibleIn_plain plain] at own
      exact absurd own outer
    · exact out.lookup shown
  obtain ⟨fuel,vs,other,mid,binding,going⟩ := now.block tied.now.native read plain
  obtain ⟨fuel',ws,staged,mid',binding',going'⟩ := later.block tied.later.native read plain
  obtain ⟨rfl,made,done,given,bound,complete,rfl⟩ :=
    (Bound.start tied form).run distinct within inits binding binding'
  rcases going with ⟨_,evaluated⟩ | ⟨on,_⟩
  swap
  · cases on
  have all : form.names.take made.length = form.names := take_names complete.ge
  have compiled := bound.compiled
  rw [complete] at compiled
  have tied' := bound.tied
  rw [all] at tied'
  have most' (x : String) : rerefer refs form.names staged x →
      rerefer most form.names (form.CompiledBefore most form.bodyIndex) x :=
    rerefer_mono within fun on => (compiled on).mono within le_rfl
  rcases going' with ⟨rfl,evaluated'⟩ | ⟨on,compiling⟩
  · -- No binding is a fragment, so the body sees variables from outside only.
    have outside {y : String} (refers : rerefer refs form.names (false = true) y) : y ∉ form.names ∧ refs y := by
      unfold rerefer at refers
      split at refers
      · cases refers
      · next outer => exact ⟨outer,refers⟩
    obtain ⟨agrees,code⟩ := simulated most' tied' evaluated evaluated'
    refine ⟨agrees.mono fun scope covers => ?_,fun staged => ?_⟩
    · refine ⟨fun y member looking refers => ?_,by simp [bound.quiet]⟩
      obtain ⟨outer,refers⟩ := outside refers
      rw [rebind_other (by rwa [bound.listed,all])]
      refine covers.known y ((mem_append.mp member).resolve_left outer) ?_ refers
      refine looks form.bodyIndex le_rfl y ?_ (form.statement_body ▸ looking)
      exact fun inner => outer (take_subset _ _ inner)
    · refine stages_statement plain shown (statement_at le_rfl) ?_
      rw [form.statement_body]
      refine (code staged).mono fun x refers => ⟨fun inner => ?_,(outside refers).2⟩
      exact (outside refers).1 (take_subset _ _ inner)
  · have hygienic := (apart ((compiled on).mono within le_rfl)).anti within
    refine ⟨?_,fun _ => (compiled on).stages plain shown⟩
    obtain ⟨known,options,start,u,c,prepared,evaluated',lifted,rfl⟩ := compiling.compileBlock tied'.later.inside
    obtain ⟨⟨data,o,tree,stands⟩,_⟩ := simulated most' (tied'.prepared prepared) evaluated evaluated'
    refine ⟨data,o,tree,.inr ⟨_,rfl,fun scope covers => ?_⟩⟩
    have settled : Plans.Settled form (given.map Prod.snd) _ _
        (Plans.ofForm form (given.map Prod.snd) (Analysis.ofForm form known options) options) :=
      Plans.ofForm_settled distinct (by simp [bound.count',complete])
    obtain ⟨_,here⟩ := prepared.rest
    rw [here] at stands
    rw [plain]
    refine settled.block_value hygienic covers (bound.listed.trans all) distinct
      (by simp [bound.count']) bound.initials looks (stands.mono fun inner covers' => ?_) lifted
    exact ⟨fun y member looking refers => covers'.known y member looking
      (rerefer_mono (fun _ => id) (fun _ => trivial) refers),covers'.flags⟩

end Forms

theorem Stageable.simulated {most : String → Prop} {names : List String} {e : Value}
    (stageable : Stageable KeepsApart most names e) : Simulated most names e := by
  induction stageable with
  | int n =>
    intro _ _ _ _ _ _ _ _ _ _ within tied now later
    obtain ⟨rfl,_⟩ := now.literal tied.now.native (.inr ⟨n,rfl⟩)
    obtain ⟨rfl,_⟩ := later.literal tied.later.native (.inr ⟨n,rfl⟩)
    exact ⟨.data rfl,nofun⟩
  | nil =>
    intro _ _ _ _ _ _ _ _ _ _ within tied now later
    obtain ⟨rfl,_⟩ := now.literal tied.now.native (.inl rfl)
    obtain ⟨rfl,_⟩ := later.literal tied.later.native (.inl rfl)
    exact ⟨.data rfl,nofun⟩
  | @name _ _ x known =>
    intro _ _ _ _ _ _ _ _ _ _ within tied now later
    obtain ⟨found,_⟩ := now.symbol tied.now.native
    obtain ⟨found',_⟩ := later.symbol tied.later.native
    obtain ⟨_,_,value,data,tree,value',means⟩ := tied.values _ known
    cases found.symm.trans value
    cases found'.symm.trans value'
    rcases means with plain | ⟨rfl,refers⟩
    · refine ⟨⟨data,_,tree,.inl plain⟩,fun code => ?_⟩
      rw [Value.isData_not_code plain.1] at code
      cases code
    · refine ⟨⟨data,_,tree,.inr ⟨_,rfl,fun scope covers => ?_⟩⟩,fun _ => .inr ⟨x,refers,.name x⟩⟩
      rw [Code.value?,covers.known x known (.name x) refers]
      rfl
  | quote items data =>
    intro _ _ _ _ _ _ _ _ _ _ _ _ now later
    obtain ⟨rfl,_⟩ := now.quote items
    obtain ⟨rfl,_⟩ := later.quote items
    refine ⟨.data data,fun code => ?_⟩
    rw [Value.isData_not_code data] at code
    cases code
  | lift items part ih =>
    intro _ _ _ _ _ _ _ _ _ _ within tied now later
    obtain ⟨u,evaluated,unlifted⟩ := now.lift items
    obtain ⟨u',evaluated',lifted⟩ := later.lift items
    refine ⟨Agrees.mono ?_ fun scope covers => covers.part (items.looks mem_cons_self), fun _ => .lift items⟩
    have agrees := (ih within tied evaluated evaluated').1
    have off := tied.off
    rw [← (part.keeps tied.now evaluated).1.levels _ tied.now.inside] at off
    rcases unlifted with rfl | ⟨on,_⟩
    · rcases lifted with rfl | ⟨_,c,lifted,rfl⟩
      · exact agrees
      · exact agrees.lift lifted
    · rw [off] at on
      cases on
  | choice items tests first second ihTest ihTrue ihFalse =>
    intro _ _ _ _ _ _ _ _ _ _ within tied now later
    exact choice_agrees tied items within ⟨tests,ihTest⟩ ⟨first,ihTrue⟩ ⟨second,ihFalse⟩ now later
  | @call _ _ e args op other items parts ih =>
    intro _ _ _ _ _ _ _ _ _ _ within tied now later
    obtain ⟨_,vs,mid,_,found,each,applying⟩ := now.call tied.now.native items
    obtain ⟨_,ws,mid',_,found',each',applying'⟩ := later.call tied.later.native items
    have shown : View.ofKeyword op.name args = .call (.sym op.name) args := by cases op <;> rfl
    have listed (p : Value) (member : p ∈ args) : ([],p) ∈ (View.ofKeyword op.name args).scopes ∧
          ([],p) ∈ (View.ofKeyword op.name args).parts := by
      rw [shown]
      exact ⟨mem_map_of_mem (.tail _ member),mem_map_of_mem (.tail _ member)⟩
    obtain ⟨agrees,code⟩ := EvaluatedEach.agrees tied within (fun p member => ⟨parts p member,ih p member⟩)
      (fun p member => items.looks (listed p member).1)
      (fun p member => items.stages (listed p member).2 (listed p member).1) each each'
    have applied := (tied.later.applied found' applying').1
    exact ⟨apply_agrees other agrees (tied.now.applied found applying).1 applied,
      fun staged => code (apply_code agrees applied staged)⟩
  | block read plain apart inits _ ihInits ihBody =>
    intro _ _ _ _ _ _ _ _ _ _ within tied now later
    exact block_agrees tied read plain within apart
      (fun i p found => ⟨inits i p found,ihInits i p found⟩) ihBody now later

theorem Env.extendAll_values (entries : List (String × Value)) {env : Env} {slots : Slots} {x : String} {v : Value}
    (found : (entries.reverse.lookup x).or (env.value? slots x) = some v) :
    (env.extendAll slots entries).1.value? (env.extendAll slots entries).2 x = some v := by
  induction entries generalizing env slots with
  | nil => exact found
  | cons entry entries ih =>
    refine ih ?_
    rw [reverse_cons,lookup_append,Option.or_assoc] at found
    cases later : entries.reverse.lookup x with
    | some w => rwa [later] at found
    | none =>
      rw [later,Option.none_or] at found
      exact Env.extend_value found

theorem Store.addRoot_levelAt (s : Store) :
    s.addRoot.2.levelAt s.addRoot.1 = { env := (Env.primitives s.slots).1 } :=
  (Store.levelAt_push { s with slots := (Env.primitives s.slots).2 } s.levels.size _).trans (if_pos rfl)

theorem Store.addRoot_standing (s : Store) : Standing s.addRoot.2 s.addRoot.1 [] := by
  refine ⟨by simp [addRoot,addLevel],?_,by simp,?_⟩
  · intro rule
    rw [s.addRoot_levelAt]
    cases rule <;> rfl
  · intro op
    refine ⟨.prim op,?_,.inl rfl⟩
    show (s.addRoot.2.levelAt s.addRoot.1).env.value? (Env.primitives s.slots).2 op.name = _
    rw [s.addRoot_levelAt]
    refine Env.extendAll_values _ ?_
    cases op <;> rfl

theorem Evaluated.run {level : Nat} {e r v : Value} {s s' : Store} (items : IsForm "run" [e] r)
    (ran : Evaluated level r s v s') : ∃ start, Evaluated s.levels.size e start v s' ∧
      (start.levelAt s.levels.size).staging = false ∧
      ∀ names, Standing s level names → Standing start s.levels.size names := by
  obtain ⟨fuel,running⟩ := ran.fixed items (fun eval => Eval.runForm eval level) fun _ => rfl
  obtain ⟨_,same,opening⟩ := running.bind_result
  cases same
  obtain ⟨inner,mid,opened,setting⟩ := opening.bind_level.bind
  obtain ⟨rfl,made⟩ := opened.scope
  obtain ⟨_,start,set,evaluating⟩ := setting.bind
  have inside : s.levels.size < mid.levels.size := by simp [made]
  obtain ⟨levels,count,slots⟩ := Ran.updateLevel inside set
  have here := levels s.levels.size
  rw [if_pos rfl] at here
  refine ⟨start,⟨fuel,evaluating⟩,by rw [here],fun names standing => ?_⟩
  rw [made] at here slots
  refine standing.scope.congr (by rw [count]; exact inside) (by rw [here]) fun x => ?_
  show (start.levelAt _).env.value? start.slots x = _
  rw [here,slots]
  rfl

theorem Ran.observed {α : Type} {x : Eval Value} {s : Store} {observe : Value → Option α} {o : α}
    (observed : (x.run.run s).1.toOption.bind observe = some o) :
    ∃ v s', Ran x s v s' ∧ observe v = some o := by
  obtain ⟨v,result,observed⟩ := Option.bind_eq_some_iff.mp observed
  cases ran : x.run.run s with
  | mk outcome s' =>
    rw [ran] at result
    cases outcome with
    | error => cases result
    | ok w =>
      cases result
      exact ⟨v,s',ran,observed⟩

theorem Evaluated.of_run {α : Type} {fuel level : Nat} {e : Value} {s : Store} {observe : Value → Option α} {o : α}
    (observed : ((eval fuel level e).run.run s).1.toOption.bind observe = some o) :
    ∃ v s', Evaluated level e s v s' ∧ observe v = some o := by
  obtain ⟨v,s',ran,observed⟩ := Ran.observed observed
  exact ⟨v,s',⟨fuel,ran⟩,observed⟩

/-- If `(run e)` has a value and `e` is a fragment, both at a new root, then the fragment computes
the value. -/
theorem compilation_preserves_value {e r : Value}
    (closed : Stageable LetForm.KeepsApart (fun _ => False) [] e)
    (running : IsForm "run" [e] r) (s : Store) {v : Value} {c : Code} {s₁ s₂ : Store}
    (now : Evaluated s.addRoot.1 r s.addRoot.2 v s₁)
    (later : Evaluated s.addRoot.1 e s.addRoot.2 (.code c) s₂) :
    ∃ o, v.tree? = some o ∧ c.value? [] = some o := by
  have standing := s.addRoot_standing
  obtain ⟨start,evaluated,off,inner⟩ := now.run running
  have tied : Tied start _ s.addRoot.2 s.addRoot.1 [] (fun _ => .null) fun _ => False :=
    ⟨inner [] standing,standing,off,by simp⟩
  obtain ⟨⟨_,o,tree,stands⟩,_⟩ := closed.simulated (fun _ => id) tied evaluated later
  have quiet : (s.addRoot.2.levelAt s.addRoot.1).releases = [] := by rw [s.addRoot_levelAt]
  exact ⟨o,tree,stands.lift rfl ⟨by simp,by simp [quiet]⟩⟩

def Value.ofParts (parts : List Value) : Value := parts.foldr (.pair 0) .nil

/-- `(let ((x (lift 1))) (let ((y (+ x 2))) (if (< x y) (list x y) '())))` -/
def nestedBlocks : Value :=
  .ofParts [.sym "let",.ofParts [.ofParts [.sym "x",.ofParts [.sym "lift",.int 1]]],
    .ofParts [.sym "let",.ofParts [.ofParts [.sym "y",.ofParts [.sym "+",.sym "x",.int 2]]],
      .ofParts [.sym "if",.ofParts [.sym "<",.sym "x",.sym "y"],
        .ofParts [.sym "list",.sym "x",.sym "y"],.ofParts [.sym "quote",.nil]]]]

theorem compilation_preserves_value_nested :
    ∃ v c s₁ s₂, Evaluated 0 (.ofParts [.sym "run",nestedBlocks]) ({} : Store).addRoot.2 v s₁ ∧
      Evaluated 0 nestedBlocks ({} : Store).addRoot.2 (.code c) s₂ ∧
      v.tree? = some (.pair (.int 1) (.pair (.int 3) .null)) ∧
      ∃ o, v.tree? = some o ∧ c.value? [] = some o := by
  have closed : Stageable LetForm.KeepsApart (fun _ => False) [] nestedBlocks := by
    refine .block rfl rfl (fun _ => ⟨by decide +kernel,by decide +kernel,by decide +kernel,nofun⟩)
      (fun i b found => ?_) (.block rfl rfl (fun _ => ⟨by decide +kernel,by decide +kernel,
        by decide +kernel,fun i _ y member _ _ _ => ?_⟩) (fun i b found => ?_) ?_)
    · rcases i with _ | i <;> cases found
      exact .lift rfl (.int 1)
    · cases mem_singleton.mp member
      refine ⟨fun x own => ?_,fun x own => ?_⟩ <;>
        cases mem_singleton.mp (take_subset _ _ own) <;> decide +kernel
    · rcases i with _ | i <;> cases found
      refine .call .add nofun rfl fun a member => ?_
      rcases mem_pair.mp member with rfl | rfl
      · exact .name (by decide)
      · exact .int 2
    · refine .choice rfl (.call .lt nofun rfl fun a member => ?_)
        (.call .list nofun rfl fun a member => ?_) (.quote rfl rfl) <;>
        rcases mem_pair.mp member with rfl | rfl <;> exact .name (by decide)
  have run : ((eval 20 0 (.ofParts [.sym "run",nestedBlocks])).run.run
      ({} : Store).addRoot.2).1.toOption.bind Value.tree? =
        some (.pair (.int 1) (.pair (.int 3) .null)) := by decide +kernel
  have compiled : ((eval 20 0 nestedBlocks).run.run ({} : Store).addRoot.2).1.toOption.bind
      (fun w => w.code?.map fun _ => ()) = some () := by decide +kernel
  obtain ⟨v,s₁,now,tree⟩ := Evaluated.of_run run
  obtain ⟨w,s₂,later,code⟩ := Evaluated.of_run compiled
  cases w with
  | code c =>
    have running : IsForm "run" [nestedBlocks] (.ofParts [.sym "run",nestedBlocks]) := rfl
    exact ⟨v,c,s₁,s₂,now,later,tree,compilation_preserves_value closed running {} now later⟩
  | _ => cases code

/-- `(let ((x (lift 1))) (let ((x (+ x 1))) x))` -/
def hidingBlock : Value :=
  .ofParts [.sym "let",.ofParts [.ofParts [.sym "x",.ofParts [.sym "lift",.int 1]]],
    .ofParts [.sym "let",.ofParts [.ofParts [.sym "x",.ofParts [.sym "+",.sym "x",.int 1]]],
      .sym "x"]]

/-- A variable that is initialised from another one of its name reads itself. -/
theorem hidden_variable_unset :
    Stageable (fun _ _ _ => True) (fun _ => False) [] hidingBlock ∧
    ∃ v c s₁ s₂, Evaluated 0 (.ofParts [.sym "run",hidingBlock]) ({} : Store).addRoot.2 v s₁ ∧
      Evaluated 0 hidingBlock ({} : Store).addRoot.2 (.code c) s₂ ∧
      v.tree? = some (.int 2) ∧ c.value? [] = none := by
  refine ⟨.block rfl rfl trivial (fun i b found => ?_)
    (.block rfl rfl trivial (fun i b found => ?_) (.name (by decide))),?_⟩
  · rcases i with _ | i <;> cases found
    exact .lift rfl (.int 1)
  · rcases i with _ | i <;> cases found
    refine .call .add nofun rfl fun a member => ?_
    rcases mem_pair.mp member with rfl | rfl
    · exact .name (by decide)
    · exact .int 1
  have run : ((eval 20 0 (.ofParts [.sym "run",hidingBlock])).run.run
      ({} : Store).addRoot.2).1.toOption.bind Value.tree? = some (.int 2) := by decide +kernel
  have compiled : ((eval 20 0 hidingBlock).run.run ({} : Store).addRoot.2).1.toOption.bind
      (fun w => w.code?.map (Code.value? [])) = some none := by decide +kernel
  obtain ⟨v,s₁,now,tree⟩ := Evaluated.of_run run
  obtain ⟨w,s₂,later,code⟩ := Evaluated.of_run compiled
  cases w with
  | code c => exact ⟨v,c,s₁,s₂,now,later,tree,Option.some.inj code⟩
  | _ => cases code

end StagedLisp
