import StagedLisp.Proofs.Twin.Runs

/-! Evaluation of an expression in two runs that number their slots and levels differently: every rule
gives results that are equal up to the numbering. -/
namespace StagedLisp

variable {values values' : List Value} {entries entries' done done' : List (String × Value)}

/-- Keywords of the forms that reach beyond the environment of a level. -/
def levelKeywords : List String := ["set-meta!","EM","menv"]

namespace Twin

open List Eval Together LetForm Value

/-- An expression that means the same in both runs. -/
structure Expr (σ : Setting) (n : Numbering) (e : Value) : Prop where
  like : Values σ n e e
  spelled : e.Spelled σ.names

/-- A form whose names and parts mean the same in both runs. -/
def FormExpr (σ : Setting) (n : Numbering) (form : LetForm) : Prop :=
  (∀ b ∈ form.bindings, Expr σ n (.sym b.name) ∧ Expr σ n b.init) ∧ Expr σ n form.body

/-- Both runs are about to evaluate the expression. In a loose setting it does not ask for its level,
unless that has the same number on both sides. -/
structure Posed (σ : Setting) (n : Numbering) (s t : Store) (i j : Nat) (e : Value) : Prop
    extends Poised σ n s t i j where
  expr : Expr σ n e
  sees : Sees σ n i (LooksUp e)
  avoids : σ.loose = true → i = j ∨ Avoids levelKeywords e

abbrev Matched (σ : Setting) (i : Nat) (x y : Eval Value) (n : Numbering) (s t : Store) : Prop :=
  Together σ i (Orderly σ) (fun n' _ _ => Values σ n') x y n s t

/-- The evaluator gives the same in both runs. -/
structure Twins (σ : Setting) (eval : Evaluator) : Prop where
  keeps : Lasts σ eval
  matched : ∀ {n s t i j e}, Posed σ n s t i j e → Matched σ i (eval i e) (eval j e) n s t

section Expressions

variable {σ : Setting} {n n' : Numbering} {s t s' t' : Store} {i j : Nat} {e : Value} {parts : List Value}

theorem Expr.mono (expr : Expr σ n e) (within : n.Within n') : Expr σ n' e :=
  ⟨expr.like.mono within,expr.spelled⟩

theorem Expr.hereditary (σ : Setting) (n : Numbering) : Hereditary (Expr σ n) := by
  intro cell head tail expr
  obtain ⟨like,spelled⟩ := expr
  cases like with
  | pair _ first rest => exact ⟨⟨first,spelled.1⟩,⟨rest,spelled.2⟩⟩

theorem Expr.form {keyword : String} (expr : Expr σ n e) (form : IsForm keyword parts e) :
    ∀ part ∈ parts, Expr σ n part :=
  (Expr.hereditary σ n).form expr form

theorem FormExpr.ofParts {kind : LetKind} {form : LetForm} (exprs : ∀ part ∈ parts, Expr σ n part)
    (read : ofParts kind parts = .ok form) : FormExpr σ n form :=
  ofParts_hereditary read (Expr.hereditary σ n) exprs

namespace FormExpr

variable {form : LetForm}

theorem mono (expr : FormExpr σ n form) (within : n.Within n') : FormExpr σ n' form :=
  ⟨fun b bound => ⟨(expr.1 b bound).1.mono within,(expr.1 b bound).2.mono within⟩, expr.2.mono within⟩

theorem spelled (expr : FormExpr σ n form) : form.Spelled σ.names :=
  ⟨fun b bound => ⟨(expr.1 b bound).1.spelled,(expr.1 b bound).2.spelled⟩,expr.2.spelled⟩

end FormExpr

theorem Entries.zip (names : List String) (each : Forall₂ (Values σ n) values values') :
    Entries σ n (names.zip values) (names.zip values') := by
  induction each generalizing names with
  | nil => simp
  | cons first _ ih =>
    cases names with
    | nil => exact .nil
    | cons name names => exact .cons ⟨rfl,first⟩ (ih names)

theorem Entries.mono (each : Entries σ n entries entries') (within : n.Within n') : Entries σ n' entries entries' :=
  Forall₂.imp (fun _ _ both => ⟨both.1,Values.mono both.2 within⟩) each

namespace Posed

variable (posed : Posed σ n s t i j e)

include posed

theorem evolve (evolves : Evolves σ i n s t n' s' t') : Posed σ n' s' t' i j e :=
  ⟨posed.toPoised.evolve evolves,posed.expr.mono evolves.within,posed.sees.mono evolves.within,posed.avoids⟩

theorem part {view : View} {part : Value} (shown : View.of? e = some view)
    (listed : ([],part) ∈ view.scopes) (expr : Expr σ n part) : Posed σ n s t i j part where
  toPoised := posed.toPoised
  expr := expr
  sees := posed.sees.fewer fun _ looks => .part shown listed not_mem_nil looks
  avoids loose := by
    refine (posed.avoids loose).imp_right fun avoids => ?_
    rcases View.mem_scopes listed with member | ⟨params,rfl⟩
    · exact avoids.part shown member
    · exact avoids.part shown mem_cons_self

variable {keyword : String}

theorem item {parts : List Value} {part : Value} (form : IsForm keyword parts e)
    (listed : ([],part) ∈ (View.ofKeyword keyword parts).scopes) (member : part ∈ parts) :
    Posed σ n s t i j part :=
  posed.part form.view listed (posed.expr.form form part member)

theorem same (head : e.headSymbol? = some keyword) (listed : keyword ∈ levelKeywords) : σ.Same n i j := by
  unfold Setting.Same
  split
  · next loose =>
    exact (posed.avoids loose).resolve_right fun avoids => avoids e keyword .self head listed
  · exact posed.site.levels

end Posed

namespace Inner

variable {names : String → Prop} {form : LetForm}

theorem posed (inner : Inner σ n s t names i j) (expr : Expr σ n e)
    (looks : ∀ x, LooksUp e x → names x) : Posed σ n s t i j e :=
  ⟨inner.toPoised,expr,inner.sees.fewer looks,fun loose => .inl (inner.same loose)⟩

variable (inner : Inner σ n s t (fun x => x ∈ form.names ∨ form.LooksOut x) i j) (expr : FormExpr σ n form)

include inner expr

theorem body : Posed σ n s t i j form.body := by
  refine inner.posed expr.2 fun x looks => ?_
  have last : form.statements[form.bodyIndex]? = some form.body := by
    simp [statements,bodyIndex]
  exact (form.looks_statement last looks).imp_left mem_names_of_visible

theorem inits (kind : form.kind = .recursive) :
    ∀ init ∈ form.bindings.map Binding.init, Posed σ n s t i j init := by
  intro init listed
  obtain ⟨b,bound,rfl⟩ := mem_map.mp listed
  obtain ⟨index,found⟩ := getElem?_of_mem bound
  refine inner.posed (expr.1 b bound).2 fun x looks => ?_
  have seen := form.looks_statement (init_at found) looks
  rwa [visibleIn,kind] at seen

end Inner

end Expressions

section Rules

variable {σ : Setting} {n : Numbering} {s t : Store} {i j : Nat} {e : Value}
  {eval reflected : Evaluator} {C : Store → Prop} {form : LetForm} {env env' : Env}
  {names : String → Prop} {parts : List Value}

theorem variable_matched (posed : Posed σ n s t i j e) :
    Matched σ i (variableRule i e) (variableRule j e) n s t := by
  unfold variableRule
  cases e with
  | sym name =>
    refine onLevel ?_
    refine (value? posed.stores (posed.env posed.sees) (.name name)).bind fun n₁ s₁ t₁ v w one found => ?_
    cases found with
    | none => exact .fault one.stores (.refl _)
    | some like => exact .pure one.stores like
  | _ => exact .fault posed.stores (.refl _)

theorem call_view {operator : Value} {operands : List Value}
    (other : ∀ name, e.headSymbol? = some name → isKeyword name = false)
    (items : e.items? = some (operator :: operands)) :
    View.of? e = some (.call operator operands) := by
  cases e with
  | pair cell head tail =>
    rw [View.of?_items (e := .pair cell head tail) items,View.ofItems_other]
    intro name same
    rw [items?] at items
    obtain ⟨_,_,split⟩ := Option.map_eq_some_iff.mp items
    cases split
    exact other name (by rw [Value.headSymbol?,Value.head?,Option.bind_some,same]; rfl)
  | _ => cases items

theorem withDrops_together (poised : Poised σ n s t i j) (e : Value) (branch : Nat) (code : Code) :
    Together σ i C (fun _ _ _ => Eq) (withDrops i e branch code) (withDrops j e branch code) n s t := by
  unfold withDrops
  cases e.cell? with
  | none => exact .pure poised.stores rfl
  | some cell =>
    refine onLevel ?_
    have same : (s.levelAt i).drops cell branch = (t.levelAt j).drops cell branch := by
      rw [Level.drops,Level.drops,poised.level.releases]
    rw [same]
    cases (t.levelAt j).drops cell branch with
    | nil | cons => exact .pure poised.stores rfl

theorem refer_together (poised : Poised σ n s t i j) (each : Entries σ n done done') :
    Together σ i C (fun _ _ _ _ _ => True) (refer i done) (refer j done') n s t := by
  induction done generalizing n s t done' with
  | nil =>
    cases each
    exact .pure poised.stores trivial
  | cons first rest ih =>
    obtain ⟨name,v⟩ := first
    cases each with
    | @cons _ first' _ rest' same others =>
    obtain ⟨name',w⟩ := first'
    obtain ⟨rfl,like⟩ := same
    rw [refer_cons,refer_cons,like.isMaterial]
    have named : Together σ i (fun _ => True) (fun _ _ _ _ _ => True)
        (if w.isMaterial then reference name >>= define i name else pure ())
        (if w.isMaterial then reference name >>= define j name else pure ()) n s t := by
      split
      · refine (reference poised.stores name).bind fun n₁ s₁ t₁ _ _ one reference => ?_
        exact (define one.stores (poised.evolve one).site.levels name reference).mono fun _ _ _ _ _ _ _ => trivial
      · exact .pure poised.stores trivial
    exact named.bind fun _ _ _ _ _ one _ => ih (poised.evolve one) (Entries.mono others one.within)

section

variable (stores : Stores σ n s t)

include stores

theorem assignEach_together (like : EnvLike σ n names env env') (each : Entries σ n entries entries')
    (named : ∀ entry ∈ entries, names entry.1) :
    Together σ i C (fun _ _ _ _ _ => True) (assignEach env entries) (assignEach env' entries') n s t := by
  induction entries generalizing n s t entries' with
  | nil =>
    cases each
    exact .pure stores trivial
  | cons first rest ih =>
    obtain ⟨name,v⟩ := first
    cases each with
    | @cons _ first' _ rest' same others =>
    obtain ⟨name',w⟩ := first'
    obtain ⟨rfl,value⟩ := same
    rw [assignEach_cons,assignEach_cons]
    refine (assign stores like (named _ mem_cons_self) value).bind fun _ _ _ _ _ one _ => ?_
    exact ih one.stores (like.mono one.within fun _ _ => id) (Entries.mono others one.within)
      fun entry member => named entry (.tail _ member)

theorem referEach_together (bindings : List Binding) (like : EnvLike σ n names env env') :
    Together σ i C (fun n' _ _ => EnvLike σ n' fun x => x ∈ bindings.map Binding.name ∨ names x)
      (referEach env bindings) (referEach env' bindings) n s t := by
  induction bindings generalizing n s t env env' names with
  | nil => exact .pure stores (like.mono (.refl n) fun _ _ named => named.resolve_left not_mem_nil)
  | cons b bindings ih =>
    refine (reference stores b.name).bind fun n₁ s₁ t₁ _ _ one reference => ?_
    refine (extend one.stores (like.mono one.within fun _ _ => id) b.name reference).bind
      fun n₂ s₂ t₂ _ _ two grown => ?_
    refine (ih two.stores grown.2).mono fun _ _ _ _ _ _ all => all.mono (.refl _) fun _ x named => ?_
    rw [map_cons,mem_cons,or_assoc] at named
    exact or_left_comm.mp named

theorem deftype_matched : Matched σ i (deftypeForm parts) (deftypeForm parts) n s t := by
  unfold deftypeForm
  split
  · refine checked stores _ fun fields _ => ?_
    refine (registerRecord stores _ fields).bind fun _ _ _ _ _ one _ => ?_
    exact .pure one.stores (.sym _)
  · exact .fault stores (.refl _)

theorem store_matched (like : EnvLike σ n names env env') {x : String} (named : names x)
    {old old' v w : Value} (kept : Values σ n old old') (value : Values σ n v w) :
    Matched σ i (store env x old v) (store env' x old' w) n s t := by
  unfold store
  rw [kept.code?,value.code?]
  split
  · refine (ofResult stores value.lift).bind fun _ _ _ c _ one same => ?_
    subst same
    exact .pure one.stores (.code _)
  · exact .pure stores (.code _)
  · refine (assign stores like named value).bind fun _ _ _ _ _ one _ => ?_
    exact .pure one.stores (value.mono one.within)

end

theorem quote_matched (posed : Posed σ n s t i j e) (form : IsForm "quote" parts e) :
    Matched σ i (ofResult (onePart "quote" parts))
      (ofResult (onePart "quote" parts)) n s t := by
  cases read : onePart "quote" parts with
  | error e => exact fun _ => ⟨n,.refl posed.stores,.error (.refl e)⟩
  | ok part =>
    obtain rfl := onePart_ok read
    exact .pure posed.stores (posed.expr.form form part mem_cons_self).like

theorem lambda_matched (posed : Posed σ n s t i j e) (form : IsForm "lambda" parts e) :
    Matched σ i (lambdaForm i parts) (lambdaForm j parts) n s t := by
  refine checked posed.stores _ fun pair read => ?_
  obtain ⟨list,body⟩ := pair
  obtain rfl := twoParts_ok read
  dsimp only
  cases list.items? with
  | none => exact .fault posed.stores (.refl _)
  | some items =>
    refine checked posed.stores _ fun params _ => ?_
    refine (fresh posed.stores).bind fun n₁ s₁ t₁ id _ one same => ?_
    subst same
    refine onLevel ?_
    have inner : Posed σ n₁ s₁ t₁ i j body := (posed.item form mem_cons_self (by simp)).evolve one
    exact .pure one.stores (.closure id params inner.expr.like ⟨inner.expr.spelled,inner.env inner.sees⟩)

theorem level_matched (posed : Posed σ n s t i j e) (head : e.headSymbol? = some "menv") :
    Matched σ i (levelForm i parts) (levelForm j parts) n s t := by
  unfold levelForm
  split
  · exact .pure posed.stores (.level (posed.same head (by decide)))
  · exact .fault posed.stores (.refl _)

section Forms

variable (twins : Twins σ eval)

include twins

theorem Twins.each (stores : Stores σ n s t) {es : List Value} (posed : ∀ e ∈ es, Posed σ n s t i j e) :
    Together σ i (Orderly σ) (fun n' _ _ => Forall₂ (Values σ n')) (eval.each i es) (eval.each j es) n s t := by
  induction es generalizing n s t with
  | nil => exact .pure stores .nil
  | cons e es ih =>
    refine (twins.matched (posed e mem_cons_self)).andThen
      (fun _ => .bind (.each twins.keeps trivial es) fun _ => .pure _) fun n₁ s₁ t₁ v w one first => ?_
    have rest := ih one.stores fun e member => (posed e (.tail _ member)).evolve one
    refine rest.andThen (fun _ => .pure _) fun n₂ s₂ t₂ vs ws two others => ?_
    exact .pure two.stores (.cons (first.mono two.within) others)

theorem Twins.applyTo (stores : Stores σ n s t) (callers : Callers σ n s t i j)
    {procedure procedure' : Value} {args args' : List Value}
    (like : Values σ n procedure procedure') (each : Forall₂ (Values σ n) args args') :
    Matched σ i (applyTo eval i procedure args) (applyTo eval j procedure' args') n s t := by
  cases like with
  | prim op => exact .primitive stores op each
  | @closure id params body env env' inner outer =>
    obtain ⟨n',enters,level⟩ := callers.enter stores outer.2 (Entries.zip params each)
    have expr : Expr σ n' body := ⟨Values.mono inner enters.within,outer.1⟩
    have inside := (twins.matched (level.posed expr fun _ looks => looks)).adapt fun _ _ alike => alike.leaving body
    unfold Matched Together
    rw [run_applyTo_closure,run_applyTo_closure]
    intro orderly
    obtain ⟨n'',evolves,results⟩ := inside.elsewhere stores.off orderly
    exact ⟨n'',enters.trans evolves,results⟩
  | pair cell head tail =>
    refine .fault stores (.fault rfl ?_)
    unfold Fault.detail
    dsimp only
    rw [(Like.pair cell head tail).text]
  | level => exact .fault stores (.fault rfl rfl)
  | _ => exact .fault stores (.refl _)

theorem branch_matched (stores : Stores σ n s t) {part : Option Value} (posed : ∀ e ∈ part, Posed σ n s t i j e) :
    Matched σ i (branch eval i part) (branch eval j part) n s t := by
  cases part with
  | none => exact .pure stores .nil
  | some part => exact twins.matched (posed part rfl)

variable {onFalse : Option Value} {onTrue : Value}

theorem bothBranches_matched (first : Posed σ n s t i j onTrue)
    (second : ∀ part ∈ onFalse, Posed σ n s t i j part) (test : Code) :
    Matched σ i (bothBranches eval i e onTrue onFalse test) (bothBranches eval j e onTrue onFalse test) n s t := by
  refine (twins.matched first).andThen (fun _ => .bind (.ofResult _) fun _ =>
      .bind (.branch twins.keeps trivial onFalse) fun _ => .bind (.ofResult _) fun _ =>
      .bind (.withDrops _ _ _ _) fun _ => .bind (.withDrops _ _ _ _) fun _ => .pure _)
    fun n₁ s₁ t₁ v w one like => ?_
  refine (ofResult one.stores like.lift).bind fun n₂ s₂ t₂ c _ two same => ?_
  subst same
  have two := one.trans two
  refine (branch_matched twins two.stores fun part member => (second part member).evolve two).andThen
      (fun _ => .bind (.ofResult _) fun _ => .bind (.withDrops _ _ _ _) fun _ =>
        .bind (.withDrops _ _ _ _) fun _ => .pure _) fun n₃ s₃ t₃ v w three like => ?_
  refine (ofResult three.stores like.lift).bind fun n₄ s₄ t₄ d _ four same => ?_
  subst same
  have four := first.toPoised.evolve (two.trans (three.trans four))
  refine (withDrops_together four e 0 c).bind fun n₅ s₅ t₅ c _ five same => ?_
  subst same
  refine (withDrops_together (four.evolve five) e 1 d).bind fun n₆ s₆ t₆ d _ six same => ?_
  subst same
  exact .pure six.stores (.code _)

theorem conditional_matched {test : Value} (tested : Posed σ n s t i j test)
    (first : Posed σ n s t i j onTrue) (second : ∀ part ∈ onFalse, Posed σ n s t i j part) :
    Matched σ i (conditional eval i e test onTrue onFalse) (conditional eval j e test onTrue onFalse) n s t := by
  rw [conditional_step,conditional_step]
  refine (twins.matched tested).andThen (fun v => ?_) fun n₁ s₁ t₁ v w one like => ?_
  · cases v.code? with
    | none => exact .ite (.call twins.keeps trivial) (.branch twins.keeps trivial onFalse)
    | some c => exact .bothBranches twins.keeps trivial e onTrue onFalse c
  · have second (part : Value) (member : part ∈ onFalse) := (second part member).evolve one
    rw [like.code?,like.truthy]
    cases w.code? with
    | none =>
      split
      · exact twins.matched (first.evolve one)
      · exact branch_matched twins one.stores second
    | some c => exact bothBranches_matched twins (first.evolve one) second c

theorem bindEach_together (kind : form.kind = .plain) (expr : FormExpr σ n form)
    {rest : List Binding} {index : Nat} (remaining : form.bindings.drop index = rest)
    {staged : Bool} (each : Entries σ n done done')
    (inner : Inner σ n s t (fun x => x ∈ form.names.take index ∨ form.LooksOut x) i j) :
    Together σ i (Orderly σ) (fun n' s' t' r r' => Forall₂ (Values σ n') r.1 r'.1 ∧ r.2 = r'.2 ∧
        Inner σ n' s' t' (fun x => x ∈ form.names ∨ form.LooksOut x) i j)
      (bindEach eval i done staged rest) (bindEach eval j done' staged rest) n s t := by
  induction rest generalizing n s t index done done' staged with
  | nil =>
    rw [take_names (drop_eq_nil_iff.mp remaining)] at inner
    refine .pure inner.stores ⟨?_,rfl,inner⟩
    rw [forall₂_map_left_iff,forall₂_map_right_iff]
    exact each.imp fun _ _ both => both.2
  | cons b rest ih =>
    obtain ⟨found,remaining⟩ := binding_next remaining
    have posed : Posed σ n s t i j b.init := by
      refine inner.posed (expr.1 b (mem_of_getElem? found)).2 fun x looks => ?_
      have seen := form.looks_statement (init_at found) looks
      rwa [visibleIn,kind] at seen
    rw [bindEach_step,bindEach_step]
    refine (twins.matched posed).andThen (fun v => ?_) fun n₁ s₁ t₁ v w one value => ?_
    · refine .bind (.ite (.refer trivial done) (.pure _)) fun _ => ?_
      refine .bind (.ite (.reference _) (.pure _)) fun _ => ?_
      exact .bind (.define trivial _ _) fun _ => .bindEach twins.keeps trivial _ _ rest
    · rw [value.isCode,value.isMaterial]
      have referred : Together σ i (fun _ => True) (fun _ _ _ _ _ => True)
          (if w.isCode && !staged then refer i done else pure ())
          (if w.isCode && !staged then refer j done' else pure ()) n₁ s₁ t₁ := by
        split
        · exact refer_together (inner.toPoised.evolve one) (each.mono one.within)
        · exact .pure one.stores trivial
      refine referred.bind fun n₂ s₂ t₂ _ _ two _ => ?_
      have bound : Together σ i (fun _ => True) (fun n' _ _ => Values σ n')
          (if (staged || w.isCode) && w.isMaterial then reference b.name else pure v)
          (if (staged || w.isCode) && w.isMaterial then reference b.name else pure w)
          n₂ s₂ t₂ := by
        split
        · exact .reference two.stores _
        · exact .pure two.stores (value.mono two.within)
      refine bound.bind fun n₃ s₃ t₃ _ _ three bound => ?_
      have inner := inner.evolve (one.trans (two.trans three))
      refine (define three.stores inner.site.levels b.name bound).bind fun n₄ s₄ t₄ _ _ four seen => ?_
      have upto := (one.trans (two.trans three)).trans four
      have value := value.mono (two.within.trans (three.within.trans four.within))
      refine ih (expr.mono upto.within) remaining (rel_append (each.mono upto.within) (.cons ⟨rfl,value⟩ .nil))
        ((inner.evolve four).knowing fun loose x known => ?_)
      rw [mem_take_succ found] at known
      by_cases new : x = b.name
      · exact new ▸ seen
      · exact (inner.evolve four).sees loose x (by tauto)

theorem compileBlock_matched (posed : Posed σ n s t i j form.body) (expr : FormExpr σ n form)
    (each : Forall₂ (Values σ n) values values') :
    Matched σ i (compileBlock eval form values i) (compileBlock eval form values' j) n s t := by
  refine onStore ?_
  refine onLevel ?_
  have like := posed.level
  -- the callers' tables may differ, but not in what the form asks them
  have plans := Plans.ofForm_agree expr.spelled like.known values' t.options
  have shapes := Analysis.bindingShapes_agree expr.spelled like.known t.options
  rw [posed.stores.options]
  dsimp only
  rw [plans,shapes,Plans.ofForm_like form _ _ each]
  refine (recordShapes posed.stores posed.site.levels _).bind fun n₁ s₁ t₁ _ _ one _ => ?_
  refine (setReleases one.stores (posed.evolve one).site.levels _).bind fun n₂ s₂ t₂ _ _ two _ => ?_
  have two := one.trans two
  refine (twins.matched (posed.evolve two)).andThen
    (fun v => .bind (.ofResult _) fun c => .pure _) fun n₃ s₃ t₃ v w three like => ?_
  have emitted (plans : Plans) : Result.Alike Eq (plans.emit form.kind v) (plans.emit form.kind w) :=
    like.lift.map fun _ _ same => congrArg _ same
  refine (ofResult three.stores (emitted _)).bind fun n₄ s₄ t₄ c _ four same => ?_
  subst same
  exact .pure four.stores (.code c)

theorem plainLet_matched (poised : Poised σ n s t i j) (kind : form.kind = .plain)
    (expr : FormExpr σ n form) (sees : Sees σ n i form.LooksOut) (staged : Bool) :
    Matched σ i (plainLet eval form i staged) (plainLet eval form j staged) n s t := by
  refine onLevel ?_
  refine (scope poised.stores poised.callers (poised.env sees)).bind fun n₁ s₁ t₁ a b one inner => ?_
  have start : Inner σ n₁ s₁ t₁ (fun x => x ∈ form.names.take 0 ∨ form.LooksOut x) a b :=
    inner.knowing (inner.sees.fewer fun _ named => named.resolve_left not_mem_nil)
  have expr := expr.mono one.within
  refine elsewhere inner.off ?_
  refine (bindEach_together twins kind expr rfl .nil start).andThen (fun r => ?_) fun n₂ s₂ t₂ r r' two bound => ?_
  · exact .ite (.compileBlock twins.keeps trivial form _) (.call twins.keeps trivial)
  · obtain ⟨values,done⟩ := r
    obtain ⟨values',done'⟩ := r'
    obtain ⟨each,rfl,inner⟩ := bound
    have expr := expr.mono two.within
    dsimp only
    split
    · exact compileBlock_matched twins (inner.body expr) expr each
    · exact twins.matched (inner.body expr)

section

variable (poised : Poised σ n s t i j) (kind : form.kind = .recursive) (expr : FormExpr σ n form)

include poised kind expr

theorem compileRecursive_matched (sees : Sees σ n i form.LooksOut) :
    Matched σ i (compileRecursive eval form i) (compileRecursive eval form j) n s t := by
  refine onLevel ?_
  refine (referEach_together poised.stores form.bindings (poised.env sees)).bind
    fun n₁ s₁ t₁ env env' one grown => ?_
  refine (scope one.stores (poised.evolve one).callers grown).bind fun n₂ s₂ t₂ a b two inner => ?_
  have expr := expr.mono (one.within.trans two.within)
  refine elsewhere inner.off ?_
  refine (twins.each two.stores (inner.inits expr kind)).andThen
    (fun values => .compileBlock twins.keeps trivial form values) fun n₃ s₃ t₃ _ _ three each => ?_
  have expr := expr.mono three.within
  exact compileBlock_matched twins ((inner.evolve three).body expr) expr each

theorem recursiveLet_matched (sees : Sees σ n i form.LooksOut) :
    Matched σ i (Eval.recursiveLet eval form i) (Eval.recursiveLet eval form j) n s t := by
  have empty : Entries σ n (form.names.map fun name => (name,nil)) (form.names.map fun name => (name,nil)) := by
    rw [Entries,forall₂_same]
    intro entry member
    obtain ⟨name,_,rfl⟩ := mem_map.mp member
    exact ⟨rfl,.nil⟩
  have all : (form.names.map fun name => (name,Value.nil)).map Prod.fst = form.names := by
    rw [map_map]
    exact map_id _
  refine onLevel ?_
  refine (extendAll poised.stores (poised.env sees) empty).bind fun n₁ s₁ t₁ env env' one grown => ?_
  rw [all] at grown
  refine (scope one.stores (poised.evolve one).callers grown).bind fun n₂ s₂ t₂ a b two inner => ?_
  have upto := one.trans two
  have evaluated := (twins.each two.stores (inner.inits (expr.mono upto.within) kind)).mono
    fun n' s' t' _ _ evolves each => And.intro (inner.evolve evolves) each
  refine (evaluated.elsewhere inner.off).andThen (fun values => ?_) fun n₃ s₃ t₃ values values' three found => ?_
  · refine .ite (.compileRecursive twins.keeps (.inl trivial) form) ?_
    exact .bind (.assignEach env _) fun _ => .call twins.keeps trivial
  · obtain ⟨inner,each⟩ := found
    have upto := upto.trans three
    rw [Primitive.any_isCode_like each]
    split
    · exact compileRecursive_matched twins (poised.evolve upto) kind (expr.mono upto.within) (sees.mono upto.within)
    · refine elsewhere inner.off ?_
      refine (assignEach_together three.stores
        (grown.mono (two.within.trans three.within) fun _ _ => id) (Entries.zip form.names each)
        fun entry member => .inl (of_mem_zip member).1).bind fun n₄ s₄ t₄ _ _ four _ => ?_
      exact twins.matched ((inner.evolve four).body (expr.mono (upto.within.trans four.within)))

end

theorem scanned_matched {part : Value} (posed : Posed σ n s t i j part) (helper : String) :
    Matched σ i (do return .code (.call1 helper (← ofResult (← eval i part).lift)))
      (do return .code (.call1 helper (← ofResult (← eval j part).lift))) n s t := by
  refine (twins.matched posed).andThen
    (fun v => .bind (.ofResult _) fun _ => .pure _) fun n₁ s₁ t₁ v w one like => ?_
  refine (ofResult one.stores like.lift).bind fun _ _ _ c _ two same => ?_
  subst same
  exact .pure two.stores (.code _)

variable (posed : Posed σ n s t i j e)

include posed

theorem call_matched (other : ∀ name, e.headSymbol? = some name → isKeyword name = false) :
    Matched σ i (callRule eval i e) (callRule eval j e) n s t := by
  unfold callRule
  cases items : e.items? with
  | none => exact .fault posed.stores (.refl _)
  | some list =>
    cases list with
    | nil => exact .fault posed.stores (.refl _)
    | cons operator operands =>
      have parts (part : Value) (member : part ∈ operator :: operands) : Posed σ n s t i j part :=
        posed.part (call_view other items) (mem_map.mpr ⟨part,member,rfl⟩)
          ((Expr.hereditary σ n).items posed.expr items part member)
      have apply (v : Value) (args : List Value) : Built (Lasts σ) (applyTo eval i v args) :=
        .applyTo twins.keeps trivial v args
      refine (twins.matched (parts _ mem_cons_self)).andThen
        (fun v => .bind (.each twins.keeps trivial operands) (apply v))
        fun n₁ s₁ t₁ v w one procedure => ?_
      have operands := twins.each one.stores fun part member =>
        (parts part (.tail _ member)).evolve one
      refine operands.andThen (apply v) fun n₂ s₂ t₂ _ _ two each => ?_
      exact twins.applyTo two.stores (posed.toPoised.evolve (one.trans two)).callers
        (procedure.mono two.within) each

theorem if_matched (head : e.headSymbol? = some "if") :
    Matched σ i (ifRule eval i e) (ifRule eval j e) n s t := by
  refine checked posed.stores _ fun parts read => ?_
  have form := parts_ok head read
  rcases parts with _ | ⟨test,_ | ⟨onTrue,_ | ⟨onFalse,_ | _⟩⟩⟩
  · exact .fault posed.stores (.refl _)
  · exact .fault posed.stores (.refl _)
  · have parts : ∀ part ∈ [test,onTrue], Posed σ n s t i j part :=
      fun part member => posed.item form (mem_map.mpr ⟨part,member,rfl⟩) member
    exact conditional_matched twins (parts test (by simp)) (parts onTrue (by simp)) (by simp)
  · have parts : ∀ part ∈ [test,onTrue,onFalse], Posed σ n s t i j part :=
      fun part member => posed.item form (mem_map.mpr ⟨part,member,rfl⟩) member
    refine conditional_matched twins (parts test (by simp)) (parts onTrue (by simp)) ?_
    intro part chosen
    cases chosen
    exact parts onFalse (by simp)
  · exact .fault posed.stores (.refl _)

theorem let_matched (head : e.headSymbol? = some "let") :
    Matched σ i (letRule eval i e) (letRule eval j e) n s t := by
  refine checked posed.stores _ fun form read => ?_
  obtain ⟨parts,listed,read⟩ := ofValue_form read
  have kind : form.kind = .plain := by
    have same := Option.some.inj (listed.head.symm.trans head)
    cases kind : form.kind with
    | plain => rfl
    | recursive =>
      rw [kind] at same
      exact absurd same (by decide)
  exact plainLet_matched twins posed.toPoised kind (.ofParts (posed.expr.form listed) read)
    (posed.sees.fewer fun x out => out.lookup (ofParts_view listed read)) false

theorem letrec_matched (form : IsForm "letrec" parts e) :
    Matched σ i (letrecForm eval i parts) (letrecForm eval j parts) n s t := by
  refine checked posed.stores _ fun inner read => ?_
  have named : IsForm LetKind.recursive.keyword parts e := form
  exact recursiveLet_matched twins posed.toPoised (ofParts_read read).1 (.ofParts (posed.expr.form form) read)
    (posed.sees.fewer fun x out => out.lookup (ofParts_view named read))

theorem lift_matched (form : IsForm "lift" parts e) :
    Matched σ i (liftForm eval i parts) (liftForm eval j parts) n s t := by
  refine checked posed.stores _ fun part read => ?_
  obtain rfl := onePart_ok read
  refine (twins.matched (posed.item form mem_cons_self mem_cons_self)).andThen (fun v => ?_)
    fun n₁ s₁ t₁ v w one like => ?_
  · exact .bind (.level i) fun l => .ite (.pure _) (.bind (.ofResult _) fun _ => .pure _)
  · refine onLevel ?_
    rw [(posed.evolve one).level.staging,like.isCode]
    split
    · exact .pure one.stores like
    · refine (ofResult one.stores like.lift).bind fun _ _ _ c _ two same => ?_
      subst same
      exact .pure two.stores (.code c)

theorem run_matched (form : IsForm "run" parts e) :
    Matched σ i (runForm eval i parts) (runForm eval j parts) n s t := by
  refine checked posed.stores _ fun part read => ?_
  obtain rfl := onePart_ok read
  refine onLevel ?_
  have posed : Posed σ n s t i j part := posed.item form mem_cons_self mem_cons_self
  refine (scope posed.stores posed.callers (posed.env posed.sees)).bind fun n₁ s₁ t₁ a b one inner => ?_
  refine elsewhere inner.off ?_
  refine (setStaging one.stores inner.site.levels false).bind fun n₂ s₂ t₂ _ _ two _ => ?_
  exact twins.matched ((inner.evolve two).posed (posed.expr.mono (one.within.trans two.within)) fun _ => id)

theorem freeze_matched (form : IsForm "freeze" parts e) :
    Matched σ i (freezeForm eval i parts) (freezeForm eval j parts) n s t := by
  refine checked posed.stores _ fun part read => ?_
  obtain rfl := onePart_ok read
  refine (twins.matched (posed.item form mem_cons_self mem_cons_self)).andThen (fun v => ?_)
    fun n₁ s₁ t₁ v w one like => ?_
  · split <;> exact .pure _
  · have kept := like
    cases like with
    | code c => exact .pure one.stores (.code _)
    | _ => exact .pure one.stores kept

theorem scan_matched (form : IsForm "scan" parts e) :
    Matched σ i (scanForm eval i parts) (scanForm eval j parts) n s t := by
  unfold scanForm
  split
  · refine onStore ?_
    rw [posed.stores.registry]
    split
    · exact scanned_matched twins (posed.item form mem_cons_self (by simp)) _
    · exact .fault posed.stores (.refl _)
  · exact scanned_matched twins (posed.item form mem_cons_self (by simp)) _
  · exact .fault posed.stores (.refl _)

theorem set_matched (form : IsForm "set!" parts e) :
    Matched σ i (setForm eval i parts) (setForm eval j parts) n s t := by
  rcases target_cases parts with ⟨x,e,rfl⟩ | ⟨⟨e,refused⟩,_⟩
  · rw [setForm_step,setForm_step]
    have target : Posed σ n s t i j (.sym x) := posed.item form mem_cons_self (by simp)
    have valued : Posed σ n s t i j e := posed.item form (.tail _ mem_cons_self) (by simp)
    refine (twins.matched valued).andThen (fun v => ?_) fun n₁ s₁ t₁ v w one value => ?_
    · refine .bind (.level i) fun l => .bind (.value? _ _) fun old => ?_
      cases old with
      | none => exact .fault _
      | some old => exact .store _ _ _ _
    · refine onLevel ?_
      have target := target.evolve one
      have like := target.env target.sees
      refine (value? one.stores like (.name x)).bind fun n₂ s₂ t₂ _ _ two found => ?_
      cases found with
      | none => exact .fault two.stores (.refl _)
      | some kept =>
        exact store_matched two.stores (like.mono two.within fun _ _ => id) (.name x) kept (value.mono two.within)
  · rw [refused,refused]
    exact fun _ => ⟨n,.refl posed.stores,.error (.refl e)⟩

theorem meta_matched (form : IsForm "EM" parts e) :
    Matched σ i (metaForm eval i parts) (metaForm eval j parts) n s t := by
  refine checked posed.stores _ fun part read => ?_
  obtain rfl := onePart_ok read
  refine (parent posed.stores posed.site).andThen (fun above => .call twins.keeps trivial)
    fun n₁ s₁ t₁ p q one above => ?_
  have expr := (posed.expr.form form part mem_cons_self).mono one.within
  exact (twins.matched (above.posed expr fun _ _ => trivial)).elsewhere above.off

theorem setMeta_matched (form : IsForm "set-meta!" parts e) :
    Matched σ i (setMetaForm eval i parts) (setMetaForm eval j parts) n s t := by
  rcases target_cases parts with ⟨x,e,rfl⟩ | ⟨_,e,refused⟩
  · rw [setMetaForm_step,setMetaForm_step]
    have expr : Posed σ n s t i j e := posed.item form mem_cons_self (by simp)
    have valued := twins.matched expr
    have changed : Together σ i (Orderly σ) (fun _ _ _ _ _ => True) (setMeta eval i x e)
        (setMeta eval j x e) n s t := by
      unfold setMeta
      cases Rule.ofName? x with
      | none =>
        refine valued.andThen (fun v => .define trivial x v) fun n₁ s₁ t₁ v w one value => ?_
        exact (define one.stores (posed.evolve one).site.levels x value).mono fun _ _ _ _ _ _ _ => trivial
      | some rule =>
        dsimp only [Option.elim_some]
        split
        · exact .setHandler posed.stores posed.site.levels rule .native
        · refine valued.andThen (fun v => ?_) fun n₁ s₁ t₁ v w one value => ?_
          · exact .ite (.update trivial fun _ => rfl) (.fault _)
          · have procedure : isProcedure v = isProcedure w := by cases value <;> rfl
            rw [procedure]
            split
            · exact .setHandler one.stores (posed.evolve one).site.levels rule (.reflected value)
            · refine .fault one.stores (.fault rfl ?_)
              unfold Fault.detail
              dsimp only
              rw [value.text]
    exact changed.andThen (fun _ => .pure _) fun _ _ _ _ _ one _ => .pure one.stores (.sym x)
  · rw [refused,refused]
    exact fun _ => ⟨n,.refl posed.stores,.error (.refl e)⟩

theorem fixed_matched {keyword : String} (head : e.headSymbol? = some keyword)
    (known : isKeyword keyword) (plain : keyword ≠ "let" ∧ keyword ≠ "if") :
    Matched σ i (evalForm eval reflected i e) (evalForm eval reflected j e) n s t := by
  have rule {rule rule' : List Value → Eval Value} (left : fixedRule? eval i keyword = some rule)
      (right : fixedRule? eval j keyword = some rule')
      (each : ∀ parts, IsForm keyword parts e → Matched σ i (rule parts) (rule' parts) n s t) :
      Matched σ i (evalForm eval reflected i e) (evalForm eval reflected j e) n s t := by
    rw [evalForm_fixed eval reflected i head left,evalForm_fixed eval reflected j head right]
    exact checked posed.stores _ fun parts read => each parts (parts_ok head read)
  have listed : keyword ∈ keywords := by simpa [isKeyword] using known
  simp only [keywords,mem_cons,not_mem_nil,or_false] at listed
  rcases listed with rfl | rfl | rfl | rfl | rfl | rfl | rfl | rfl | rfl | rfl | rfl | rfl | rfl | rfl
  · exact absurd rfl plain.1
  · exact absurd rfl plain.2
  · exact rule rfl rfl fun parts form => quote_matched posed form
  · exact rule rfl rfl fun parts form => lift_matched twins posed form
  · exact rule rfl rfl fun parts form => lambda_matched posed form
  · exact rule rfl rfl fun parts form => meta_matched twins posed form
  · exact rule rfl rfl fun parts form => setMeta_matched twins posed form
  · exact rule rfl rfl fun parts form => scan_matched twins posed form
  · exact rule rfl rfl fun parts form => letrec_matched twins posed form
  · exact rule rfl rfl fun parts form => set_matched twins posed form
  · exact rule rfl rfl fun parts form => run_matched twins posed form
  · exact rule rfl rfl fun parts _ => deftype_matched posed.stores
  · exact rule rfl rfl fun parts form => freeze_matched twins posed form
  · exact rule rfl rfl fun parts _ => level_matched posed head

end Forms

theorem Twins.dispatch (twins : Twins σ reflected) (posed : Posed σ n s t i j e) (rule : Rule)
    {native native' : Eval Value} (matched : Matched σ i native native' n s t) :
    Matched σ i (dispatch rule native reflected i e) (dispatch rule native' reflected j e) n s t := by
  refine onLevel ?_
  have like := posed.level.handlers rule
  generalize (s.levelAt i).handlers.get rule = handler at like ⊢
  generalize (t.levelAt j).handlers.get rule = handler' at like ⊢
  cases like with
  | native => exact matched
  | reflected procedure =>
    refine (parent posed.stores posed.site).andThen
      (fun _ => .applyTo twins.keeps trivial _ _) fun n₁ s₁ t₁ p q one above => ?_
    exact (twins.applyTo one.stores above.callers (procedure.mono one.within)
      (.cons (posed.expr.like.mono one.within) .nil)).elsewhere above.off

theorem evalForm_matched (twins : Twins σ eval) (reflects : Twins σ reflected) (posed : Posed σ n s t i j e) :
    Matched σ i (evalForm eval reflected i e) (evalForm eval reflected j e) n s t := by
  by_cases other : ∀ name, e.headSymbol? = some name → isKeyword name = false
  · rw [evalForm_other eval reflected i other,evalForm_other eval reflected j other]
    exact reflects.dispatch posed .call (call_matched twins posed other)
  · simp only [not_forall,Bool.not_eq_false] at other
    obtain ⟨keyword,head,known⟩ := other
    by_cases isLet : keyword = "let"
    · subst isLet
      rw [evalForm_let eval reflected i head,evalForm_let eval reflected j head]
      exact reflects.dispatch posed .letForm (let_matched twins posed head)
    · by_cases isIf : keyword = "if"
      · subst isIf
        rw [evalForm_choice eval reflected i head,evalForm_choice eval reflected j head]
        exact reflects.dispatch posed .ifForm (if_matched twins posed head)
      · exact fixed_matched twins posed head known ⟨isLet,isIf⟩

end Rules

section Evaluation

variable {σ : Setting} {eval reflected : Evaluator}

theorem evalStep_matched (twins : Twins σ eval) (reflects : Twins σ reflected) {n : Numbering}
    {s t : Store} {i j : Nat} {e : Value} (posed : Posed σ n s t i j e) :
    Matched σ i (evalStep eval reflected i e) (evalStep eval reflected j e) n s t := by
  cases e with
  | int | nil => exact reflects.dispatch posed .literal (.pure posed.stores posed.expr.like)
  | sym name => exact reflects.dispatch posed .symbol (variable_matched posed)
  | pair cell head tail =>
    exact (evalForm_matched twins reflects posed).adapt fun _ _ alike => alike.whileEvaluating _
  | _ => exact .pure posed.stores posed.expr.like

theorem evalStep_twins (twins : Twins σ eval) (reflects : Twins σ reflected) :
    Twins σ (evalStep eval reflected) where
  keeps i e := by
    have step : Built (Lasts σ) (evalStep eval reflected i e) := .evalStep twins.keeps trivial reflects.keeps e
    exact .of_parallel step
  matched := evalStep_matched twins reflects

/-- Evaluation gives the same in both runs, up to the numbering. -/
theorem eval_twins (σ : Setting) (fuel : Nat) : Twins σ (StagedLisp.eval fuel) := by
  have deep : Twins σ tooDeep := ⟨fun _ _ _ => id,fun posed => .fault posed.stores (.refl _)⟩
  exact eval_of_step deep evalStep_twins fuel

end Evaluation

end Twin

end StagedLisp
