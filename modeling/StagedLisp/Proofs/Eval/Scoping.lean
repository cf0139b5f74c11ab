import StagedLisp.Proofs.Eval.Erasure
import StagedLisp.Proofs.Eval.ScopedBlocks

/-! Fragments stay in scope. Whatever a fragment uses as a variable is declared in it, before it is
used, if the expressions that are evaluated assign only what they may. -/
namespace StagedLisp

open List Eval LetForm Code Secures Value

variable {items : List Value}

theorem Eval.mem_params {read names : List String} {x : String}
    (ok : params read items = .ok names) (member : x ∈ names) :
    x ∈ read ∨ sym x ∈ items := by
  induction items generalizing read with
  | nil =>
    cases ok
    exact .inl member
  | cons item items ih =>
    cases item with
    | sym name =>
      rw [params] at ok
      split at ok
      · cases ok
      · rcases ih ok with old | later
        · rw [mem_append,mem_singleton] at old
          rcases old with before | rfl
          · exact .inl before
          · exact .inr mem_cons_self
        · exact .inr (.tail _ later)
    | _ => cases ok

theorem Value.elements_items {list : Value} (listed : list.items? = some items) : list.elements = items := by
  induction list generalizing items with
  | nil =>
    cases listed
    rfl
  | pair cell head tail _ ih =>
    obtain ⟨rest,found,rfl⟩ := Option.map_eq_some_iff.mp listed
    rw [elements,ih found]
  | _ => cases listed

section Rules

variable {steady : Prop} {eval : Evaluator} (secure : eval.Secure steady) {w : World} {i : Nat}
  {p : Standpoint} {refs bound : Set String} (located : Located w i p refs bound)

include located

theorem variable_secure (x : String) :
    Secures steady w w (fun w' v => v.Fits steady w'.slots p.vars ∧ (x ∈ refs → v.isCode))
      (variableRule i (.sym x)) := by
  refine .level located.place fun l fits => ?_
  refine .value? fits.env fits.refers fun old code found => ?_
  cases old with
  | none => exact .fault le_rfl
  | some v =>
    refine .pure le_rfl ⟨(found v rfl).1,fun known => ?_⟩
    obtain ⟨c,same⟩ := code (located.known known)
    cases same
    rfl

include secure

theorem applyTo_secure {procedure : Value} {args : List Value} (fits : procedure.Fits steady w.slots p.vars)
    (each : ∀ v ∈ args, v.Fits steady w.slots p.vars) :
    Secures steady w w (Suits steady p.vars .anything) (applyTo eval i procedure args) := by
  cases procedure with
  | prim op => exact (primitive op each).mono le_rfl fun _ _ _ fits => ⟨fits,trivial⟩
  | closure _ params body env =>
    obtain ⟨names,locals,o,part,refers,fewer,apart⟩ := fits.body
    have entries : ∀ entry ∈ params.zip args, entry.2.Fits steady w.slots p.vars :=
      fun entry member => each _ (of_mem_zip member).2
    refine (extendAll entries fits.around refers (fun entry member => apart _ (of_mem_zip member).1)).bind le_rfl
      fun w₁ grown less extended => ?_
    obtain ⟨_,around,refers,_⟩ := extended
    -- The body stands where the caller does, with the names of the procedure.
    let q : Standpoint := { vars := p.vars, refs := names, lifts := steady }
    refine .scope (q := q) (less.places i p located.place) (fun stages => ⟨stages,id⟩) around refers ?_
    exact (secure _ _ q names locals _ o ⟨w₁.enter_last q,subset_rfl,fewer⟩ part).adapt.mono
      (less.trans (w₁.le_enter q)) fun _ _ _ suits => ⟨suits.1,trivial⟩
  | _ => exact .fault le_rfl

variable {e value operand onTrue : Value} {o q : Forecast} {onFalse : Option Value} {x : String}

theorem call_secure {operator : Value} {operands : List Value} {outs : Nat → Forecast}
    (items : e.formItems? = some (operator :: operands))
    (first : Scoped steady p.lifts refs bound operator o)
    (rest : ∀ (j : Nat) operand, operands[j]? = some operand → Scoped steady p.lifts refs bound operand (outs j)) :
    Secures steady w w (Suits steady p.vars .anything) (callRule eval i e) := by
  obtain ⟨cell,tail,rfl,listed⟩ := formItems_cons items
  unfold callRule
  simp only [items?,listed,Functor.map,Option.map_some]
  refine (secure _ _ _ _ _ _ _ located first).bind le_rfl fun w₁ procedure less suits => ?_
  refine (each_secure secure (located.mono less) rest).bind less fun w₂ args less' evaluated => ?_
  refine (applyTo_secure secure ((located.mono less).mono less')
    (suits.1.mono less'.slots subset_rfl) fun v member => ?_).mono (less.trans less')
    fun _ _ _ => id
  obtain ⟨j,valued⟩ := mem_iff_getElem?.mp member
  exact (evaluated.2 j v valued).1

omit secure in
theorem withDrops_secure {c : Code} (within : c.Within p.vars) (e : Value) (branch : Nat) :
    Secures steady w w (fun w' d => w' = w ∧ d.Within p.vars) (withDrops i e branch c) := by
  unfold withDrops
  split
  · exact .pure le_rfl ⟨rfl,within⟩
  · next site _ =>
    refine .level located.place fun l fits => ?_
    split
    · exact .pure le_rfl ⟨rfl,within⟩
    · refine .pure le_rfl ⟨rfl,?_⟩
      rw [Code.Within]
      refine ⟨fun d member => ?_,within⟩
      obtain ⟨r,listed,rfl⟩ := mem_map.mp member
      exact fits.drops r (mem_filter.mp listed).1

theorem branch_secure (second : ∀ part ∈ onFalse, Scoped steady p.lifts refs bound part q)
    (absent : onFalse = none → q = .data) :
    Secures steady w w (Suits steady p.vars q) (branch eval i onFalse) := by
  cases onFalse with
  | none =>
    rw [absent rfl]
    exact .pure le_rfl ⟨trivial,rfl⟩
  | some part => exact secure _ _ _ _ _ _ _ located (second part rfl)

theorem bothBranches_secure {test : Code} (within : test.Within p.vars)
    (first : Scoped steady p.lifts refs bound onTrue o)
    (second : ∀ part ∈ onFalse, Scoped steady p.lifts refs bound part q)
    (absent : onFalse = none → q = .data) :
    Secures steady w w (Suits steady p.vars .fragment) (bothBranches eval i e onTrue onFalse test) := by
  refine (secure _ _ _ _ _ _ _ located first).bind le_rfl fun w₁ v less suits => ?_
  refine .result less fun c lifted => ?_
  have located₁ := located.mono less
  refine (branch_secure secure located₁ second absent).bind less fun w₂ u less' suits' => ?_
  refine .result (less.trans less') fun d lifted' => ?_
  have beyond := less.trans less'
  have located₂ := located₁.mono less'
  refine (withDrops_secure located₂ (suits.1.lift lifted) e 0).bind beyond fun _ c' _ dropped => ?_
  obtain ⟨rfl,within'⟩ := dropped
  refine (withDrops_secure located₂ (suits'.1.lift lifted') e 1).bind beyond fun _ d' _ dropped => ?_
  obtain ⟨rfl,within''⟩ := dropped
  refine .pure beyond ⟨?_,rfl⟩
  show (conditional test c' d').Within p.vars
  rw [Code.Within]
  exact ⟨within,within',within''⟩

theorem conditional_secure {test : Value} {r : Forecast} (tests : Scoped steady p.lifts refs bound test r)
    (first : Scoped steady p.lifts refs bound onTrue o)
    (second : ∀ part ∈ onFalse, Scoped steady p.lifts refs bound part q)
    (absent : onFalse = none → q = .data) :
    Secures steady w w (Suits steady p.vars (.chosen r o q)) (conditional eval i e test onTrue onFalse) := by
  rw [conditional_step]
  refine (secure _ _ _ _ _ _ _ located tests).bind le_rfl fun w₁ v less suits => ?_
  have located := located.mono less
  have taken (plain : v.isCode = false) : Secures steady w w₁ (Suits steady p.vars (.chosen r o q))
      (if v.truthy then eval i onTrue else branch eval i onFalse) := by
    split
    · exact (secure _ _ _ _ _ _ _ located first).mono less fun _ _ _ result =>
        ⟨result.1,Forecast.chosen_taken suits.2 plain (.inl result.2)⟩
    · exact (branch_secure secure located second absent).mono less fun _ _ _ result =>
        ⟨result.1,Forecast.chosen_taken suits.2 plain (.inr result.2)⟩
  cases v with
  | code c =>
    exact (bothBranches_secure secure located suits.1 first second absent).mono less
      fun _ _ _ result => ⟨result.1,Forecast.chosen_compiled suits.2 rfl result.2⟩
  | _ => exact taken rfl

theorem assign_secure (known : x ∈ refs) (part : Scoped steady p.lifts refs bound value o) :
    Secures steady w w (Suits steady p.vars .fragment) (setForm eval i [.sym x,value]) := by
  rw [setForm_step]
  refine (secure _ _ _ _ _ _ _ located part).bind le_rfl fun w₁ v less suits => ?_
  refine .level (located.mono less).place fun l fits => ?_
  refine .value? fits.env fits.refers fun old code found => ?_
  obtain ⟨place,rfl⟩ := code (located.known known)
  refine .result less fun c lifted => .pure less ⟨?_,rfl⟩
  show (assign place c).Within p.vars
  rw [Code.Within]
  exact ⟨(found _ rfl).1,suits.1.lift lifted⟩

theorem store_secure (constant : o.isConstant) (part : Scoped steady p.lifts refs bound value o) :
    Secures steady w w (Suits steady p.vars .anything) (setForm eval i [.sym x,value]) := by
  rw [setForm_step]
  refine (secure _ _ _ _ _ _ _ located part).bind le_rfl fun w₁ v less suits => ?_
  have datum := suits.2.constant constant
  refine .level (located.mono less).place fun l fits => ?_
  refine .value? fits.env fits.refers fun old _ found => ?_
  cases old with
  | none => exact .fault less
  | some old =>
    obtain ⟨fits,plain⟩ := found old rfl
    have written (other : old.isCode = false) : Secures steady w w₁ (Suits steady p.vars .anything)
        (assign l.env x v >>= fun _ => pure v) := by
      refine (assign fun j k named kind => ?_).andThen less fun _ => .pure less ⟨suits.1,trivial⟩
      exact ⟨fits_datum datum,fun code => (plain other j k named kind code).elim⟩
    have none : v.code? = none := by
      cases v with
      | code => cases datum
      | _ => rfl
    show Secures steady w w₁ (Suits steady p.vars .anything) (store l.env x old v)
    unfold store
    rw [none]
    cases old with
    | code place =>
      refine .result less fun c lifted => .pure less ⟨?_,trivial⟩
      show (assign place c).Within p.vars
      rw [Code.Within]
      exact ⟨fits,suits.1.lift lifted⟩
    | _ => exact written rfl

section

variable (part : Scoped steady p.lifts refs bound operand o)

include part

theorem lift_secure : Secures steady w w (fun w' v => v.Fits steady w'.slots p.vars ∧ (p.lifts → v.isCode))
      (liftForm eval i [operand]) := by
  refine (secure _ _ _ _ _ _ _ located part).bind le_rfl fun w₁ v less suits => ?_
  refine .level (located.mono less).place fun l fits => ?_
  split
  · next given =>
    refine .pure less ⟨suits.1,fun lifts => ?_⟩
    rw [fits.staging lifts] at given
    exact given
  · exact .result less fun c lifted => .pure less ⟨suits.1.lift lifted,fun _ => rfl⟩

theorem freeze_secure : Secures steady w w (Suits steady p.vars o) (freezeForm eval i [operand]) := by
  refine (secure _ _ _ _ _ _ _ located part).bind le_rfl fun w₁ v less suits => ?_
  cases v with
  | code c =>
    refine .pure less ⟨?_,suits.2.code rfl rfl⟩
    show (call1 "freeze_cyclic" c).Within p.vars
    rw [Code.Within]
    exact ⟨.inl (by decide),suits.1⟩
  | _ => exact .pure less suits

theorem scan_secure : Secures steady w w (Suits steady p.vars .fragment) (scanForm eval i [operand]) := by
  have scans : scanForm eval i [operand] = eval i operand >>= fun v =>
      ofResult v.lift >>= fun c => pure (.code (.call1 "scan_obj" c)) := by
    cases operand <;> rfl
  rw [scans]
  refine (secure _ _ _ _ _ _ _ located part).bind le_rfl fun w₁ v less suits => ?_
  refine .result less fun c lifted => .pure less ⟨?_,rfl⟩
  show (call1 "scan_obj" c).Within p.vars
  rw [Code.Within]
  exact ⟨.inl (by decide),suits.1.lift lifted⟩

theorem scanRecord_secure {record : String} : Secures steady w w (Suits steady p.vars .fragment)
      (scanForm eval i [.sym record,operand]) := by
  refine .get fun s => ?_
  split
  · refine (secure _ _ _ _ _ _ _ located part).bind le_rfl fun w₁ v less suits => ?_
    refine .result less fun c lifted => .pure less ⟨?_,rfl⟩
    show (call1 ("scan_" ++ identifier record) c).Within p.vars
    rw [Code.Within]
    exact ⟨.inr ⟨record,rfl⟩,suits.1.lift lifted⟩
  · exact .fault le_rfl

end

theorem run_secure (varies : ¬ steady) (part : Scoped steady False refs bound operand o) :
    Secures steady w w (Suits steady p.vars o) (runForm eval i [operand]) := by
  refine .result le_rfl fun _ only => ?_
  cases only
  refine .level located.place fun l fits => ?_
  let q : Standpoint := { vars := p.vars, refs := p.refs, lifts := False }
  refine .scope (q := q) located.place (fun _ => ⟨False.elim,varies⟩) fits.env fits.refers ?_
  have less := w.le_enter q
  refine (stopStaging (w.enter_last q) id).andThen less fun _ => ?_
  exact (secure _ _ q _ _ _ _ ⟨w.enter_last q,located.known,located.within⟩ part).mono less fun _ _ _ => id

theorem above_secure (part : Scoped steady True ∅ ∅ operand o) :
    Secures steady w w (Suits steady p.vars o) (metaForm eval i [operand]) := by
  refine (parent located.place).bind le_rfl fun w₁ above less root => ?_
  exact (secure _ _ .root _ _ _ _ ⟨root,subset_rfl,subset_rfl⟩ part).mono less
    fun _ _ _ suits => ⟨suits.1.mono (.refl _) (Set.empty_subset _),suits.2⟩

theorem define_secure (other : Rule.ofName? x = none) (new : x ∉ bound)
    (part : Scoped steady p.lifts refs bound value o) :
    Secures steady w w (Suits steady p.vars .datum) (setMetaForm eval i [.sym x,value]) := by
  rw [setMetaForm_step]
  have defined : Secures steady w w (fun _ _ => True) (setMeta eval i x value) := by
    unfold setMeta
    rw [other]
    refine (secure _ _ _ _ _ _ _ located part).bind le_rfl fun w₁ v less suits => ?_
    have place := (located.mono less).place
    refine (define (k := ⟨p.vars,False⟩) place (.inr rfl) suits.1 False.elim subset_rfl
      subset_rfl rfl (fun y member => .inr ⟨member,?_⟩) ?_).mono le_rfl fun _ _ _ _ => trivial
    · rintro rfl
      exact new (located.within member)
    · rw [World.move_self (w := w₁.hold ⟨p.vars,False⟩) place]
      exact less.trans (w₁.le_hold _)
  exact defined.bind le_rfl fun _ _ less _ => .pure less ⟨trivial,rfl⟩

omit secure in
theorem lambda_secure {params body : Value} (items : IsForm "lambda" [params,body] e)
    (spelled : e.Spelled Quiet)
    (part : Scoped steady steady (refs \ {x | x ∈ paramNames params}) bound body o) :
    Secures steady w w (Suits steady p.vars .procedure) (lambdaForm i [params,body]) := by
  have parts := spelled.form items
  have list := parts params (by simp)
  have inside := parts body (by simp)
  refine .result le_rfl fun _ two => ?_
  cases two
  dsimp only
  split
  · exact .fault le_rfl
  · next listed found =>
    refine .result le_rfl fun names read => ?_
    refine fresh.andThen le_rfl fun number => .level located.place fun l fits => ?_
    have symbol {x : String} (member : x ∈ names) : sym x ∈ listed :=
      (mem_params read member).resolve_left (not_mem_nil)
    refine .pure le_rfl ⟨⟨fits.env,fun x member => ?_,_,bound,o,part,?_,?_,fun x member kept => ?_⟩,rfl⟩
    · rcases mem_append.mp member with param | captured
      · exact list.items found _ (symbol param)
      · exact inside.free (mem_filter.mp captured).1
    · exact fits.refers.mono (.refl _) (Set.sdiff_subset.trans located.known)
    · exact Set.sdiff_subset.trans (located.known.trans located.within)
    · refine kept.2 (mem_filterMap.mpr ⟨.sym x,?_,rfl⟩)
      rw [elements_items found]
      exact symbol member

omit secure located in
theorem deftype_secure (parts : List Value) :
    Secures steady w w (Suits steady p.vars .datum) (deftypeForm parts) := by
  unfold deftypeForm
  split
  · refine .result le_rfl fun fields _ => ?_
    exact (Secures.registerRecord _ fields).andThen le_rfl fun _ => .pure le_rfl ⟨trivial,rfl⟩
  · exact .fault le_rfl

omit secure located in
theorem menv_secure (parts : List Value) :
    Secures steady w w (Suits steady p.vars .procedure) (levelForm i parts) := by
  unfold levelForm
  split
  · exact .pure le_rfl ⟨trivial,rfl⟩
  · exact .fault le_rfl

end Rules

section Forms

variable {steady : Prop} {eval reflected : Evaluator} {w : World} {i : Nat} {p : Standpoint}
  {e operator : Value} {R : World → Value → Prop} {operands : List Value}

theorem form_secure (items : e.formItems? = some (operator :: operands))
    (secures : Secures steady w w R (evalForm eval reflected i e)) :
    Secures steady w w R (evalStep eval reflected i e) := by
  obtain ⟨cell,tail,rfl,_⟩ := formItems_cons items
  exact secures.adapt

variable {parts : List Value} {o : Forecast} {outs : Nat → Forecast} {form : LetForm}

theorem fixed_secure {keyword : String} (items : IsForm keyword parts e)
    {rule : List Value → Eval Value} (known : fixedRule? eval i keyword = some rule)
    (secures : Secures steady w w R (rule parts)) :
    Secures steady w w R (evalStep eval reflected i e) := by
  refine form_secure items ?_
  rw [evalForm_fixed _ _ _ items.head known,items.parts,ofResult_ok_bind]
  exact secures

variable {refs bound : Set String} (secure : eval.Secure steady) (located : Located w i p refs bound)

include secure located

theorem choice_secure {test onTrue : Value} (onFalse : Option Value) {q r : Forecast}
    (items : IsForm "if" (test :: onTrue :: onFalse.toList) e)
    (tests : Scoped steady p.lifts refs bound test r)
    (first : Scoped steady p.lifts refs bound onTrue o)
    (second : ∀ part ∈ onFalse, Scoped steady p.lifts refs bound part q)
    (absent : onFalse = none → q = .data) :
    Secures steady w w (Suits steady p.vars (.chosen r o q)) (evalStep eval reflected i e) := by
  refine form_secure items ?_
  rw [evalForm_choice _ _ _ items.head]
  refine .dispatch located.place ?_ _ _ _
  unfold ifRule
  rw [items.parts,ofResult_ok_bind]
  cases onFalse with
  | none | some part => exact conditional_secure secure located tests first second absent

theorem application_secure (items : e.formItems? = some (operator :: operands))
    (other : ∀ name, operator = .sym name → isKeyword name = false)
    (first : Scoped steady p.lifts refs bound operator o)
    (rest : ∀ (j : Nat) operand, operands[j]? = some operand → Scoped steady p.lifts refs bound operand (outs j)) :
    Secures steady w w (Suits steady p.vars .anything) (evalStep eval reflected i e) := by
  refine form_secure items ?_
  rw [evalForm_other _ _ _ fun name named => other name (head_of_items items named)]
  exact .dispatch located.place (call_secure secure located items first rest) _ _ _

theorem block_secure (items : IsForm "let" parts e) (read : ofParts .plain parts = .ok form)
    (spelled : e.Spelled Quiet) (apart : ∀ x, ¬ form.HidesLate x)
    (inits : ∀ (j : Nat) b, form.bindings[j]? = some b →
      Scoped steady p.lifts (form.referred outs refs j) (bound ∪ form.bound) b.init (outs j))
    (body : Scoped steady p.lifts (form.referred outs refs form.bindings.length) (bound ∪ form.bound) form.body o) :
    Secures steady w w (Suits steady p.vars (form.forecast outs o)) (evalStep eval reflected i e) := by
  have keyed : IsForm LetKind.plain.keyword parts e := items
  refine form_secure items ?_
  rw [evalForm_let _ _ _ items.head]
  refine .dispatch located.place ?_ _ _ _
  unfold letRule
  rw [ofValue_parts keyed,read,ofResult_ok_bind]
  exact plainLet_secure secure located (ofParts_read read).1 (ofParts_ok read).1
    (ofParts_named (spelled.form items) read) apart inits body

theorem functions_secure (read : ofParts .recursive parts = .ok form)
    (inits : ∀ (j : Nat) b, form.bindings[j]? = some b →
      Scoped steady p.lifts (refs \ form.bound) (bound ∪ form.bound) b.init (outs j))
    (solid : ∀ j < form.bindings.length, (outs j).isSolid)
    (body : Scoped steady p.lifts (refs \ form.bound) (bound ∪ form.bound) form.body o) :
    Secures steady w w (Suits steady p.vars (form.forecast outs o)) (letrecForm eval i parts) := by
  unfold letrecForm
  rw [read,ofResult_ok_bind]
  refine recursiveLet_secure secure located inits body (fun _ _ _ _ => subset_rfl)
    fun _ values _ full tells code => ?_
  rw [← full] at solid
  cases code.symm.trans (Forecast.any_code_eq_false tells solid)

theorem knot_secure {again : Nat → Forecast} (items : IsForm "letrec" parts e)
    (read : ofParts .recursive parts = .ok form) (spelled : e.Spelled Quiet)
    (inits : ∀ (j : Nat) b, form.bindings[j]? = some b →
      Scoped steady p.lifts (refs \ form.bound) (bound ∪ form.bound) b.init (outs j))
    (second : ∀ (j : Nat) b, form.bindings[j]? = some b →
      Scoped steady p.lifts (refs ∪ form.bound) (bound ∪ form.bound) b.init (again j))
    (built : ∀ j < form.bindings.length, (again j).isVariable)
    (body : Scoped steady p.lifts (form.referred outs refs form.bindings.length) (bound ∪ form.bound) form.body o) :
    Secures steady w w (Suits steady p.vars (form.forecast outs o)) (letrecForm eval i parts) := by
  have named := ofParts_named (spelled.form items) read
  have all : form.names.take form.bindings.length = form.names := take_names le_rfl
  unfold letrecForm
  rw [read,ofResult_ok_bind]
  refine recursiveLet_secure secure located inits body (fun values full tells plain => ?_) fun w' _ less _ _ _ => ?_
  · rintro x (⟨staged,_⟩ | ⟨known,hidden⟩)
    · rw [← full] at staged
      cases plain.symm.trans (Forecast.any_code tells staged)
    · rw [all] at hidden
      exact ⟨known,hidden⟩
  · refine compileRecursive_secure secure (located.mono less) (ofParts_read read).1
      (ofParts_ok read).1 named second built ?_ body
    rintro x (⟨_,j,_,named,_⟩ | ⟨known,_⟩)
    · exact .inr (mem_of_getElem? named)
    · exact .inl known

omit located in
theorem evalStep_secure : (evalStep eval reflected).Secure steady := by
  intro w i p refs bound e o located part
  cases part with
  | int n | nil => exact .dispatch located.place (.pure le_rfl ⟨trivial,rfl⟩) _ _ _
  | name x =>
    refine .dispatch located.place ?_ _ _ _
    exact (variable_secure located x).mono le_rfl fun _ _ _ found => ⟨found.1,trivial⟩
  | @reference _ _ _ x known =>
    refine .dispatch located.place ?_ _ _ _
    exact (variable_secure located x).mono le_rfl fun _ _ _ found => ⟨found.1,found.2 known⟩
  | quote items datum =>
    exact fixed_secure items rfl (.pure le_rfl ⟨fits_datum datum,datum⟩)
  | list items data =>
    exact fixed_secure items rfl (.pure le_rfl ⟨fits_datum (isData_datum data),data⟩)
  | lambda items spelled part =>
    exact fixed_secure items rfl (lambda_secure located items spelled part)
  | block items read spelled apart inits body =>
    exact block_secure secure located items read spelled apart inits body
  | functions items read inits solid body =>
    exact fixed_secure items rfl (functions_secure secure located read inits solid body)
  | knot items read spelled inits second built body =>
    exact fixed_secure items rfl (knot_secure secure located items read spelled inits second built body)
  | @choice _ _ _ _ _ _ onFalse _ _ q items tests first second =>
    refine choice_secure secure located (some onFalse) (q := q) items tests first
      (fun part same => ?_) nofun
    cases same
    exact second
  | option items tests first =>
    exact choice_secure secure located none items tests first nofun fun _ => rfl
  | assign items known part =>
    exact fixed_secure items rfl (assign_secure secure located known part)
  | store items part constant =>
    exact fixed_secure items rfl (store_secure secure located constant part)
  | lift stages items part =>
    refine fixed_secure items rfl ((lift_secure secure located part).mono le_rfl ?_)
    exact fun _ _ _ lifted => ⟨lifted.1,lifted.2 stages⟩
  | attempt items part =>
    refine fixed_secure items rfl ((lift_secure secure located part).mono le_rfl ?_)
    exact fun _ _ _ lifted => ⟨lifted.1,trivial⟩
  | freeze items part => exact fixed_secure items rfl (freeze_secure secure located part)
  | run varies items part => exact fixed_secure items rfl (run_secure secure located varies part)
  | above items part => exact fixed_secure items rfl (above_secure secure located part)
  | define items other new part =>
    exact fixed_secure items rfl (define_secure secure located other new part)
  | scan items part => exact fixed_secure items rfl (scan_secure secure located part)
  | scanRecord items part => exact fixed_secure items rfl (scanRecord_secure secure located part)
  | deftype items => exact fixed_secure items rfl (deftype_secure _)
  | level items => exact fixed_secure items rfl (menv_secure _)
  | call items other first rest => exact application_secure secure located items other first rest

end Forms

theorem eval_secure (steady : Prop) (fuel : Nat) : (eval fuel).Secure steady := by
  have deep : tooDeep.Secure steady := fun _ _ _ _ _ _ _ _ _ => .fault le_rfl
  exact eval_of_step deep (fun secure _ => evalStep_secure secure) fuel

/-- The store after forms that are evaluated one after the other at a level, with errors or not. -/
def Store.afterEach (level : Nat) (s : Store) (forms : List Value) : Store :=
  forms.foldl (fun t e => ((evaluate level e).run.run t).2) s

theorem Store.Fits.afterEach {steady : Prop} {w : World} {s : Store} {root : Nat}
    (fits : s.Fits steady w) (known : w.places[root]? = some .root) {forms : List Value}
    (parts : ∀ e ∈ forms, ∃ o, Scoped steady True ∅ ∅ e o) :
    ∃ w', w ≤ w' ∧ (s.afterEach root forms).Fits steady w' := by
  induction forms generalizing w s with
  | nil => exact ⟨w,le_rfl,fits⟩
  | cons e forms ih =>
    obtain ⟨⟨o,part⟩,rest⟩ := forall_mem_cons.mp parts
    have located : Located w root .root ∅ ∅ := ⟨known,subset_rfl,subset_rfl⟩
    obtain ⟨w₁,less,fits,_⟩ := eval_secure steady depthLimit _ _ _ _ _ _ _ located part s fits
    obtain ⟨w₂,more,fits⟩ := ih fits (less.places _ _ known) rest
    exact ⟨w₂,less.trans more,fits⟩

/-- After any forms that keep fragments in scope, a fragment uses only variables that it declares
before. -/
theorem fragment_declares_variables {s : Store} (slots : s.slots = #[]) (levels : s.levels = #[])
    {steady : Prop} {earlier : List Value} (each : ∀ e ∈ earlier, ∃ o, Scoped steady True ∅ ∅ e o)
    {e : Value} {o : Forecast} (part : Scoped steady True ∅ ∅ e o) {c : Code} {s' : Store}
    (ran : Ran (evaluate s.addRoot.1 e) (s.addRoot.2.afterEach s.addRoot.1 earlier) (.code c) s') :
    c.Within ∅ := by
  have empty : s.Fits steady ⟨[],[]⟩ :=
    ⟨⟨by rw [slots]; rfl,nofun⟩,by rw [levels]; rfl,nofun⟩
  obtain ⟨w,_,fits,root⟩ := empty.addRoot
  obtain ⟨w',less,fits⟩ := fits.afterEach root each
  have located : Located w' s.addRoot.1 .root ∅ ∅ :=
    ⟨less.places _ _ root,subset_rfl,subset_rfl⟩
  obtain ⟨_,_,_,result⟩ := eval_secure steady depthLimit _ _ _ _ _ _ _ located part _ fits
  exact (result _ (congrArg Prod.fst ran)).1

/-- `(set-meta! double (lambda (n) (let ((m (lift n))) (set! m (+ m m)))))` -/
def doubling : Value :=
  .ofParts [.sym "set-meta!",.sym "double",.ofParts [.sym "lambda",.ofParts [.sym "n"],
    .ofParts [.sym "let",.ofParts [.ofParts [.sym "m",.ofParts [.sym "lift",.sym "n"]]],
      .ofParts [.sym "set!",.sym "m",.ofParts [.sym "+",.sym "m",.sym "m"]]]]]

/-- `(let ((x (lift 2))) (if x (double x) (set! x 5)))` -/
def doubled : Value :=
  .ofParts [.sym "let",.ofParts [.ofParts [.sym "x",.ofParts [.sym "lift",.int 2]]],
    .ofParts [.sym "if",.sym "x",.ofParts [.sym "double",.sym "x"],
      .ofParts [.sym "set!",.sym "x",.int 5]]]

def Code.leading? : Code → Option String
  | block (.declare name _ _ _) => some name
  | _ => none

def Code.assigned? : Code → Option String
  | assign (var name) _ => some name
  | _ => none

theorem Ran.fragment {α : Type} {x : Eval Value} {s : Store} {observe : Code → Option α} {a : α}
    (observed : (x.run.run s).1.toOption.bind (fun v => v.code?.bind observe) = some a) :
    ∃ c s', Ran x s (.code c) s' ∧ observe c = some a := by
  obtain ⟨v,s',ran,shown⟩ := Ran.observed observed
  obtain ⟨c,code,shown⟩ := Option.bind_eq_some_iff.mp shown
  cases v with
  | code d =>
    cases code
    exact ⟨c,s',ran,shown⟩
  | _ => cases code

/-- The fragment is a block that declares `x`, with a block inside for the procedure. -/
theorem doubled_declares_variables :
    ∃ c s', Ran (evaluate 0 doubled) (({} : Store).addRoot.2.afterEach 0 [doubling]) (.code c) s' ∧
      c.leading? = some "x" ∧ c.Within ∅ := by
  have name (x : String) (other : isKeyword x = false) (name : String)
      (same : Value.sym x = .sym name) : isKeyword name = false := by
    cases same
    exact other
  have first : Scoped True True ∅ ∅ doubling .datum := by
    refine .define rfl (by decide) (by simp) (.lambda (o := .fragment) rfl (by decide +kernel) ?_)
    refine .compiled (o := .fragment) rfl rfl (by decide +kernel) (.lift trivial rfl (.name "n")) ?_
    refine .assign rfl (by simp) (.application rfl (name "+" rfl) (.name "+") ?_)
    simp only [mem_cons,not_mem_nil,or_false,or_self,forall_eq]
    exact ⟨_,.name "m"⟩
  have second : Scoped True True ∅ ∅ doubled .fragment := by
    refine .compiled (o := .chosen .anything .anything .fragment) rfl rfl (by decide +kernel)
      (.lift trivial rfl (.int 2)) ?_
    refine .choice rfl (.name "x") (.application rfl (name "double" rfl) (.name "double") ?_)
      (.assign rfl (by simp) (.int 5))
    simp only [mem_cons,not_mem_nil,or_false,forall_eq]
    exact ⟨_,.name "x"⟩
  have run : ((evaluate 0 doubled).run.run
      (({} : Store).addRoot.2.afterEach 0 [doubling])).1.toOption.bind
        (fun v => v.code?.bind Code.leading?) = some "x" := by decide +kernel
  obtain ⟨c,s',ran,shown⟩ := Ran.fragment run
  refine ⟨c,s',ran,shown,?_⟩
  refine fragment_declares_variables (s := {}) rfl rfl (fun e member => ?_) second ran
  cases mem_singleton.mp member
  exact ⟨_,first⟩

/-- `(let ((y 1)) (set! y (lift 2)))` -/
def liftedAssignment : Value :=
  .ofParts [.sym "let",.ofParts [.ofParts [.sym "y",.int 1]],
    .ofParts [.sym "set!",.sym "y",.ofParts [.sym "lift",.int 2]]]

/-- The form is not compiled, so nothing declares the variable that the assignment leaves to the
generated program. -/
theorem liftedAssignment_undeclared :
    ∃ c s', Ran (evaluate 0 liftedAssignment) ({} : Store).addRoot.2 (.code c) s' ∧
      c.render = "(y = mk_int(2))" ∧ ¬ c.Within ∅ := by
  have run : ((evaluate 0 liftedAssignment).run.run ({} : Store).addRoot.2).1.toOption.bind
      (fun v => v.code?.bind fun c => c.assigned?.map fun name => (name,c.render)) =
      some ("y","(y = mk_int(2))") := by decide +kernel
  obtain ⟨c,s',ran,shown⟩ := Ran.fragment run
  obtain ⟨name,assigned,shown⟩ := Option.map_eq_some_iff.mp shown
  refine ⟨c,s',ran,(Prod.mk.inj shown).2,fun within => ?_⟩
  unfold Code.assigned? at assigned
  split at assigned
  · simp at within
  · cases assigned

end StagedLisp
