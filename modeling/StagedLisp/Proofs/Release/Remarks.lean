import StagedLisp.Proofs.Code.Comments
import StagedLisp.Proofs.Code.Identifier
import StagedLisp.Proofs.Release.Names

/-! The comments of a compiled block, and the names in them. Without the comments the block has the same
text, unless a name leads out of its comment. -/
namespace StagedLisp

open List Code BindingPlan Action String Step Prod

variable {rest front bound name : String} {index : Nat}

namespace Code

variable {P : String → Prop} {a b : String} {c d : Code}

/-- The code of a statement, and the words of the comment behind it. -/
def Action.line : Action → String × Option String
  | remark words => ("",some words)
  | action => (action.statement ++ (if action.remark?.isSome then " " else ""),action.remark?)

theorem Action.line_remark (action : Action) : action.line.2 = action.remark? := by
  cases action <;> rfl

def Action.target : Action → String
  | flag target | freeze target | free _ target _ | guardedFree _ target _ | releaseComponent target _ => target
  | remark _ => ""

theorem Bare.prepend (plain : '/' ∉ a.toList) (bare : Bare b) : Bare (a ++ b) := by
  rw [Bare,toList_append,isChain_append]
  refine ⟨(pairwise_of_forall_mem_list ?_).isChain,bare,?_⟩
  · rintro x member _ _ ⟨rfl,_⟩
    exact plain member
  · rintro x last _ _ ⟨rfl,_⟩
    exact plain (mem_of_mem_getLast? last)

theorem bare_of_plain (plain : '/' ∉ a.toList) : Bare a := by
  simpa using Bare.prepend plain (show Bare "" from .nil)

/-- The code neither starts a comment nor ends in half a mark. -/
def Tidy (code : String) : Prop := Bare code ∧ code.toList.getLast? ≠ some '*'

theorem Action.line_tidy {action : Action} (plain : '/' ∉ action.target.toList) : Tidy action.line.1 := by
  have routine (r : Routine) : '/' ∉ r.name.toList := by cases r <;> decide
  unfold line statement
  refine ⟨bare_of_plain ?_,?_⟩
  · cases action <;> simp_all [remark?,target,flagName,freeCall]
  · cases action <;> simp [remark?,getLast?_cons]

theorem Bare.tidy {back : String} (bare : Bare a) (plain : '/' ∉ front.toList)
    (ends : back = ";" ∨ back = "; ") : Tidy (front ++ a ++ back) := by
  have apart : Bare (front ++ a ++ back) := by
    rw [Bare,toList_append,isChain_append]
    refine ⟨bare.prepend plain,bare_of_plain (by rcases ends with rfl | rfl <;> decide),?_⟩
    rintro _ _ _ next ⟨_,rfl⟩
    rcases ends with rfl | rfl <;> simp at next
  rcases ends with rfl | rfl <;> exact ⟨apart,by simp⟩

theorem Bare.exchange {old new : String} (bare : Bare (old ++ rest)) (plain : '/' ∉ new.toList) :
    Bare (new ++ rest) := by
  rw [Bare,toList_append,isChain_append] at bare
  exact .prepend plain bare.2.1

theorem Bare.after {start : String} (bare : Bare a) (found : Text.after? start a = some rest) : Bare rest := by
  unfold Text.after? at found
  split at found
  · cases found
    rw [Bare,toList_ofList]
    exact bare.drop _
  · cases found

theorem render_text (source : String) : (text source).render = source := rfl

theorem bare_reusing {donor : String} (plain : '/' ∉ donor.toList) (reused : reusing? donor c = some d)
    (bare : Bare c.render) : Bare d.render := by
  have front {call : String} (name : '/' ∉ call.toList) : '/' ∉ (call ++ taken donor ++ ", ").toList := by
    simp [taken,plain,name]
  cases c with
  | int storage n =>
    cases storage with
    | heap =>
      cases reused
      change Bare ("mk_int(" ++ toString n.toInt ++ ")") at bare
      change Bare ("reuse_as_int(" ++ taken donor ++ ", " ++ toString n.toInt ++ ")")
      rw [String.append_assoc] at bare ⊢
      exact bare.exchange (front (by decide))
    | _ => cases reused
  | pair other head tail =>
    cases other with
    | none =>
      cases reused
      change Bare ("mk_pair(" ++ head.render ++ ", " ++ tail.render ++ ")") at bare
      change Bare ("reuse_as_pair(" ++ taken donor ++ ", " ++ head.render ++ ", " ++ tail.render ++ ")")
      iterate 3 rw [String.append_assoc] at bare ⊢
      exact bare.exchange (front (by decide))
    | some => cases reused
  | text source =>
    rw [render_text] at bare
    simp only [reusing?] at reused
    split at reused
    · next found =>
      cases reused
      rw [render_text]
      exact .prepend (front (by decide)) (bare.after found)
    · split at reused
      · next found =>
        cases reused
        rw [render_text]
        exact .prepend (front (by decide)) (bare.after found)
      · cases reused
  | _ => cases reused

theorem bare_pooled (bare : Bare c.render) : Bare c.pooled.render := by
  cases c with
  | int storage n =>
    cases storage with
    | heap =>
      change Bare ("mk_int(" ++ toString n.toInt ++ ")") at bare
      change Bare ("mk_int_stack(" ++ toString n.toInt ++ ")")
      rw [String.append_assoc] at bare ⊢
      exact bare.exchange (by decide)
    | _ => exact bare
  | text source =>
    simp only [pooled]
    split
    · next found =>
      rw [render_text] at bare ⊢
      exact .prepend (by decide) (bare.after found)
    · exact bare
  | _ => exact bare

theorem identifier_plain (name : String) : '/' ∉ (identifier name).toList := fun member =>
  absurd (all_eq_true.mp (identifier_isVariable name).chars _ member) (by decide)

end Code

@[simp] def Step.line : Step → String × Option String
  | declare name value note => ("Obj* " ++ name ++ " = " ++ value.render ++ "; ",some note.words)
  | assign name value => (name ++ " = " ++ value.render ++ ";",none)
  | act action => action.line

section Tidy

variable {p : BindingPlan} (plain : '/' ∉ p.ident.toList)

include plain

theorem BindingPlan.declaration_tidy {c : Code} (bare : Bare c.render) :
    ∀ step ∈ p.declaration c, Tidy step.line.1 := by
  rw [declaration,forall_mem_cons]
  refine ⟨bare.tidy (by simp [plain]) (.inr rfl),?_⟩
  split <;> simp [Action.line_tidy,Action.target,plain]

theorem BindingPlan.opening_tidy : ∀ step ∈ p.opening, Tidy step.line.1 := by
  unfold opening
  split <;> simp [Action.line_tidy,Action.target,plain]

theorem BindingPlan.earlyRelease_tidy : ∀ step ∈ p.earlyRelease index bound, Tidy step.line.1 := by
  unfold earlyRelease
  split
  · split <;> simp [Action.line_tidy,Action.target,plain]
  · simp

theorem BindingPlan.closing_tidy : ∀ action ∈ p.closing?, Tidy action.line.1 := by
  unfold closing?
  split
  · dsimp only
    split <;> simp [line_tidy,target,plain]
  all_goals simp [line_tidy,target,plain]

end Tidy

section Pieces

variable {P : String → Prop} (pieces : Piecewise P) {p : BindingPlan}

include pieces

theorem Code.Piecewise.noted (quiet : Quiet rest)
    (mark : ∃ c ∈ [' ',',',':'], rest.toList.head? = some c) : P (name ++ rest) ↔ P name := by
  rw [pieces.append (.inr mark),and_iff_left (pieces.fixed quiet)]

theorem Code.Piecewise.mention {other : String} (quiet : Quiet front)
    (mark : ∃ c ∈ [' ',',',':'], front.toList.head? = some c)
    (blank : front.toList.getLast? = some ' ') : P (name ++ front ++ other) ↔ P name ∧ P other := by
  obtain ⟨c,listed,first⟩ := mark
  rw [String.append_assoc,pieces.append (.inr ⟨c,listed,by simp [first]⟩),
    pieces.append (.inl ⟨quiet,blank⟩),and_iff_right (pieces.fixed quiet)]

theorem Code.Note.words_iff (n : Note) : P n.words ↔ P n.name ∧ ∀ donor ∈ n.reuses, P donor := by
  have described : P (n.name ++ ": shape " ++ n.shape.name ++ ", escape " ++ n.escape.name) ↔ P n.name := by
    rw [String.append_assoc,pieces.noted (by cases n.escape <;> decide) ⟨',',by simp⟩,
      String.append_assoc,pieces.noted (by cases n.shape <;> decide) ⟨':',by simp⟩]
  have stacked : P (n.name ++ ": shape " ++ n.shape.name ++ ", escape " ++ n.escape.name ++
      (if n.stack then ", stack candidate" else "")) ↔ P n.name := by
    split
    · rw [pieces.noted (by decide) ⟨',',by decide⟩,described]
    · rwa [append_empty]
  rw [words]
  cases n.reuses with
  | none => simpa using stacked
  | some donor =>
    dsimp only
    rw [← String.append_assoc,pieces.mention (by decide) ⟨',',by decide⟩ (by decide),stacked]
    simp

theorem BindingPlan.closing_words (named : P p.name) :
    (∀ action ∈ p.closing?, ∀ words ∈ action.remark?, P words) ↔ ∀ name ∈ p.release.mentions, P name := by
  have fixed {rest : String} (quiet : Quiet rest) (mark : rest.toList.head? = some ':') : P (p.name ++ rest) :=
    (pieces.noted quiet ⟨':',by simp,mark⟩).mpr named
  have other {front name : String} (quiet : Quiet front) (mark : front.toList.head? = some ':')
      (blank : front.toList.getLast? = some ' ') : P (p.name ++ front ++ name) ↔ P name :=
    (pieces.mention quiet ⟨':',by simp,mark⟩ blank).trans (and_iff_right named)
  rw [closing?]
  cases release : p.release with
  | unused | early => simp [Release.mentions]
  | frozen | captured | borrowed =>
    simpa [Release.mentions,Action.remark?] using fixed (by decide) (by decide)
  | elided owner =>
    cases owner with
    | none => simpa [Release.mentions,Action.remark?] using fixed (by decide) (by decide)
    | some owner => simpa [Release.mentions,Action.remark?] using other (by decide) (by decide) (by decide)
  | donated receiver =>
    simpa [Release.mentions,Action.remark?] using other (by decide) (by decide) (by decide)
  | projected whole =>
    simpa [Release.mentions,Action.remark?] using
      (pieces.noted (by decide) ⟨',',by decide⟩).trans (other (by decide) (by decide) (by decide))
  | atEnd routine =>
    have remark : P (p.name ++ ": " ++ p.shape.name ++ ", " ++ routine.name) := by
      rw [String.append_assoc,pieces.noted (by cases routine <;> decide) ⟨',',by simp⟩]
      rw [String.append_assoc,pieces.noted (by cases p.shape <;> decide) ⟨':',by simp⟩]
      exact named
    dsimp only
    split
    · simpa [Release.mentions,Action.remark?] using remark
    · simpa [Release.mentions,Action.remark?] using (pieces.noted (by decide) ⟨' ',by decide⟩).mpr remark

omit pieces in
theorem BindingPlan.declaration_words (c : Code) :
    (∀ step ∈ p.declaration c, ∀ words ∈ step.line.2, P words) ↔ P p.note.words := by
  unfold declaration
  split <;> simp [Action.line,Action.remark?]

theorem BindingPlan.opening_words : ∀ step ∈ p.opening, ∀ words ∈ step.line.2, P words := by
  unfold opening
  split
  · simp [Action.line,Action.remark?]
  · simpa [Action.line,Action.remark?] using pieces.fixed (by decide)
  · simp

theorem BindingPlan.earlyRelease_words : (∀ step ∈ p.earlyRelease index bound, ∀ words ∈ step.line.2, P words) ↔
      ∀ routine, p.release = .early index routine → P p.name ∧ P bound := by
  unfold earlyRelease
  split
  · next after routine release =>
    rw [release]
    split
    · next same =>
      subst same
      simpa [Action.line,Action.remark?] using pieces.mention (by decide) ⟨':',by decide⟩ (by decide)
    · next other => simp [other]
  · next late => simpa using fun routine release => absurd release (late _ routine)

end Pieces

namespace Plans

variable {P : String → Prop} {plans : Plans} {kind : LetKind} {result : Code}

def lines (plans : Plans) (kind : LetKind) (result : Code) : List (String × Option String) :=
  (plans.steps kind).map Step.line ++ ("Obj* " ++ resultName ++ " = " ++ result.render ++ ";",none) ::
    (plans.closing.map Action.line ++ [(resultName ++ ";",none)])

/-- All names in the comments of the block have the property. -/
def Noted (P : String → Prop) (plans : Plans) : Prop :=
  ∀ p ∈ plans, p.init.isSome → (∀ name ∈ p.mentions, P name) ∧
    ∀ after routine q, p.release = .early after routine → plans[after]? = some q → P q.name

/-- What holds of the statements before the result, if it does not depend on the value of a declaration. -/
theorem steps_forall {Q : Step → Prop} (declares : ∀ p ∈ plans, ∀ c, p.init = some c →
      ((∀ step ∈ p.declaration c, Q step) ↔ ∀ step ∈ p.declaration .null, Q step))
    (assigns : ∀ p ∈ plans, ∀ c, p.init = some c → Q (.assign p.ident c)) :
    (∀ step ∈ plans.steps kind, Q step) ↔ (∀ p ∈ plans, p.init.isSome → ∀ step ∈ p.declaration .null, Q step) ∧
        ∀ (i : Nat) q, plans[i]? = some q → ∀ step ∈ plans.afterStatement i, Q step := by
  cases kind with
  | plain =>
    simp only [steps,forall_mem_flatMap,forall_mem_append]
    constructor
    · intro all
      have each (i : Nat) q (found : plans[i]? = some q) := all (q,i) (mk_mem_zipIdx_iff_getElem?.mpr found)
      refine ⟨fun p member built => ?_,fun i q found => (each i q found).2⟩
      obtain ⟨i,found⟩ := mem_iff_getElem?.mp member
      obtain ⟨c,init⟩ := Option.isSome_iff_exists.mp built
      have declared := (each i p found).1
      rw [init] at declared
      exact (declares p member c init).mp declared
    · rintro ⟨notes,after⟩ ⟨p,i⟩ member
      have found := mk_mem_zipIdx_iff_getElem?.mp member
      have member := mem_of_getElem? found
      refine ⟨?_,after i p found⟩
      cases init : p.init with
      | none => simp
      | some c => exact (declares p member c init).mpr (notes p member (by rw [init]; rfl))
  | recursive =>
    have assigned : ∀ step ∈ plans.filterMap fun p => p.init.map fun init => assign p.ident init, Q step := by
      intro step member
      obtain ⟨p,listed,built⟩ := mem_filterMap.mp member
      obtain ⟨c,init,rfl⟩ := Option.map_eq_some_iff.mp built
      exact assigns p listed c init
    simp only [steps,forall_mem_flatMap,forall_mem_append,mem_range,and_iff_left assigned]
    refine and_congr (forall₂_congr fun p _ => ?_) ⟨fun all i q found => all i (lt_of_getElem? found),
      fun all i inside => all i _ (getElem?_eq_getElem inside)⟩
    split
    · next built => rw [forall_prop_of_true built]
    · next absent => simp [absent]

theorem afterStatement_words (pieces : Piecewise P) {q : BindingPlan} (found : plans[index]? = some q) :
    (∀ step ∈ plans.afterStatement index, ∀ words ∈ step.line.2, P words) ↔
      ∀ p ∈ plans, ∀ routine, p.release = .early index routine → P p.name ∧ P q.name := by
  rw [afterStatement,found]
  simp only [Option.map_some,Option.getD_some,forall_mem_append,forall_mem_flatMap,earlyRelease_words pieces,
    and_iff_right (opening_words pieces)]

/-- The comments of a block have a property exactly if the names in them do. -/
theorem lines_words (pieces : Piecewise P) (absent : ∀ p ∈ plans, p.init = none → p.release = .borrowed) :
    (∀ line ∈ plans.lines kind result, ∀ words ∈ line.2, P words) ↔ plans.Noted P := by
  have closing : (∀ action ∈ plans.closing, ∀ words ∈ action.line.2, P words) ↔
      ∀ p ∈ plans, p.init.isSome → ∀ action ∈ p.closing?, ∀ words ∈ action.remark?, P words := by
    simp only [Plans.closing,forall_mem_filterMap,mem_filter,mem_reverse,and_imp,line_remark]
    rfl
  have steps := @steps_forall plans kind (fun step => ∀ words ∈ step.line.2, P words)
    (fun p _ c _ => (p.declaration_words c).trans (p.declaration_words .null).symm) (by simp)
  simp only [lines,forall_mem_append,forall_mem_map,forall_mem_cons,steps,closing,declaration_words,
    Note.words_iff pieces]
  constructor
  · rintro ⟨⟨notes,after⟩,-,closes,-⟩ p member built
    obtain ⟨named,donors⟩ := notes p member built
    refine ⟨?_,fun index routine q release found =>
      ((afterStatement_words pieces found).mp (after index q found) p member routine release).2⟩
    rw [mentions,forall_mem_cons,forall_mem_append]
    exact ⟨named,fun name taken => donors name (Option.mem_toList.mp taken),
      (closing_words pieces named).mp (closes p member built)⟩
  · intro noted
    have names p member built := (noted p member built).1
    simp only [mentions,forall_mem_cons,forall_mem_append] at names
    refine ⟨⟨fun p member built => ⟨(names p member built).1,fun donor taken => ?_⟩,fun i q found => ?_⟩,by simp,
      fun p member built => (closing_words pieces (names p member built).1).mpr (names p member built).2.2,by simp⟩
    · exact (names p member built).2.1 donor (Option.mem_toList.mpr taken)
    · refine (afterStatement_words pieces found).mpr fun p member routine release => ?_
      have built : p.init.isSome := by
        rw [Option.isSome_iff_ne_none]
        exact fun none => by simp [absent p member none] at release
      exact ⟨(names p member built).1,(noted p member built).2 i routine q release found⟩

theorem lines_tidy (plain : ∀ p ∈ plans, '/' ∉ p.ident.toList) (bare : Bare result.render)
    (inits : ∀ p ∈ plans, ∀ c, p.init = some c → Bare c.render) :
    ∀ line ∈ plans.lines kind result, Tidy line.1 := by
  have empty : Bare Code.null.render := bare_of_plain (show '/' ∉ "NULL".toList by decide)
  have steps : ∀ step ∈ plans.steps kind, Tidy step.line.1 := by
    refine (steps_forall (fun p member c init => iff_of_true ?_ ?_) fun p member c init => ?_).mpr ⟨?_,?_⟩
    · exact declaration_tidy (plain p member) (inits p member c init)
    · exact declaration_tidy (plain p member) empty
    · exact (inits p member c init).tidy (by simp [plain p member]) (.inl rfl)
    · exact fun p member _ => declaration_tidy (plain p member) empty
    · intro i q found
      simp only [afterStatement,found,Option.map_some,Option.getD_some,forall_mem_append,forall_mem_flatMap]
      exact ⟨opening_tidy (plain q (mem_of_getElem? found)),fun p member => earlyRelease_tidy (plain p member)⟩
  simp only [lines,forall_mem_append,forall_mem_map,forall_mem_cons]
  refine ⟨steps,bare.tidy (by decide) (.inl rfl),fun action member => ?_,
    ⟨bare_of_plain (by decide),by decide⟩,by simp⟩
  obtain ⟨p,listed,closes⟩ := mem_filterMap.mp member
  exact closing_tidy (plain p (mem_reverse.mp (mem_filter.mp listed).1)) action closes

theorem lineText_plain (code : String) : lineText (code,none) = code := String.append_empty

theorem lineText_action (action : Action) : lineText action.line = action.render := by
  cases action <;> simp [lineText,Action.line,Action.render,Action.remark?,String.append_assoc]

theorem before_lines (steps : List Step) (last : Block) :
    (steps.foldr before last).lines = steps.map (lineText ·.line) ++ last.lines := by
  induction steps with
  | nil => rfl
  | cons step steps ih =>
    rw [foldr_cons,map_cons,cons_append,← ih]
    cases step with
    | declare => rfl
    | assign => exact congrArg (· :: _) (lineText_plain _).symm
    | act action => exact congrArg (· :: _) (lineText_action action).symm

theorem blockAround_render :
    (plans.blockAround kind result).render = framed ((plans.lines kind result).map lineText) := by
  have finish : (Block.finish result plans.closing).lines =
      ("Obj* " ++ resultName ++ " = " ++ result.render ++ ";") ::
        (plans.closing.map Action.render ++ [resultName ++ ";"]) := rfl
  change framed ((plans.steps kind).foldr before _).lines = _
  rw [before_lines,finish,lines]
  simp [Function.comp_def,lineText_plain,lineText_action]

variable (form : LetForm) (values : List Value) (known : Table Shape) (options : Options)

theorem uncommented_iff (distinct : form.names.Nodup) (full : values.length = form.bindings.length)
    (bare : Bare result.render) (inits : ∀ v ∈ values, ∀ c, v.declared? = some c → Bare c.render) :
    let plans := ofForm form values (Analysis.ofForm form known options) options
    let lines := plans.lines form.kind result
    uncommented (framed (lines.map lineText)) = framed (lines.map Prod.fst) ↔ plans.Noted Sealed := by
  intro plans lines
  have settled : Settled form values _ _ plans := ofForm_settled distinct full
  have plain : ∀ p ∈ plans, '/' ∉ p.ident.toList := fun p member =>
    settled.idents p member ▸ identifier_plain p.name
  refine (uncommented_framed (lines_tidy plain bare fun p member c init => ?_)).trans
    (lines_words sealed_piecewise settled.absent)
  obtain ⟨i,found⟩ := mem_iff_getElem?.mp member
  have inside := settled.length ▸ lt_of_getElem? found
  have valued : values[i]? = some values[i] := getElem?_eq_getElem (full ▸ inside)
  have own := inits values[i] (getElem_mem _)
  have builds := settled.built i p values[i] found valued
  unfold BindingPlan.Builds at builds
  split at builds
  · obtain ⟨_,d,_,declared,reused,made⟩ := builds
    cases made.symm.trans init
    exact bare_reusing (identifier_plain _) reused (own d declared)
  · rw [builds] at init
    obtain ⟨d,declared,rfl⟩ := Option.map_eq_some_iff.mp init
    split
    · exact bare_pooled (own d declared)
    · exact own d declared

/-- Where the code of the values and of the result starts no comment, deleting the comments of a block leaves what is
assembled without them, exactly if no name in the comments leads out of its comment. A name in which none ends does
not. -/
theorem emit_uncommented (body : Value) (distinct : form.names.Nodup)
    (full : values.length = form.bindings.length) (lifted : body.lift = .ok result) (bare : Bare result.render)
    (inits : ∀ v ∈ values, ∀ c, v.declared? = some c → Bare c.render) :
    let plans := ofForm form values (Analysis.ofForm form known options) options
    let lines := plans.lines form.kind result
    ∃ code, plans.emit form.kind body = .ok code ∧ code.render = framed (lines.map lineText) ∧
      (uncommented code.render = framed (lines.map fst) ↔ plans.Noted Sealed) ∧
      (form.Named Quiet → uncommented code.render = framed (lines.map Prod.fst)) := by
  intro plans lines
  have exactly := uncommented_iff form values known options distinct full bare inits
  refine ⟨plans.blockAround form.kind result,by rw [emit,lifted]; rfl,blockAround_render,?_,fun named => ?_⟩
  · rwa [blockAround_render]
  · rw [blockAround_render]
    have quiet : ∀ p ∈ plans, ∀ name ∈ p.mentions, Quiet name := ofForm_mentions distinct full named
    refine exactly.mpr fun p member _ => ⟨fun name listed => strip_quiet (quiet p member name listed),?_⟩
    exact fun _ _ q _ found => strip_quiet (quiet q (mem_of_getElem? found) _ mem_cons_self)

/-- `(let ((name 1)) name)` -/
def unitForm (name : String) : LetForm := ⟨.plain,[⟨name,.int 1⟩],.sym name⟩

theorem unit_bare : ∀ v ∈ [Value.int 1], ∀ c, v.declared? = some c → Bare c.render := by
  intro v member c declared
  cases mem_singleton.mp member
  cases declared
  exact bare_of_plain (show '/' ∉ "mk_int(1)".toList by decide)

theorem var_bare (name : String) : Bare (var (identifier name)).render := bare_of_plain (identifier_plain name)

/-- A name may start a comment inside one. -/
theorem openingName_uncommented : let form := unitForm "a/*b"
    let plans := ofForm form [.int 1] (Analysis.ofForm form [] {}) {}
    let result := Code.var (identifier "a/*b")
    ∃ code, plans.emit .plain (.code result) = .ok code ∧
      uncommented code.render = framed ((plans.lines .plain result).map fst) := by
  intro form plans result
  have named : form.Named Quiet :=
    ⟨by decide,by simp [form,unitForm,exposed?],by simp [form,unitForm,LetForm.statements,assignments]⟩
  obtain ⟨code,emitted,_,_,exactly⟩ :=
    emit_uncommented form [.int 1] [] {} (.code result) (by decide) rfl rfl (var_bare _) unit_bare
  exact ⟨code,emitted,exactly named⟩

/-- A name that ends a comment leaves some of it behind. -/
theorem closingName_uncommented : let form := unitForm "a*/b"
    let plans := ofForm form [.int 1] (Analysis.ofForm form [] {}) {}
    let result := Code.var (identifier "a*/b")
    Reader.read "a*/b" = .ok (.sym "a*/b") ∧ ∃ code, plans.emit .plain (.code result) = .ok code ∧
      uncommented code.render ≠ framed ((plans.lines .plain result).map fst) := by
  intro form plans result
  refine ⟨by decide +kernel,_,rfl,fun same => ?_⟩
  rw [blockAround_render] at same
  have noted := (uncommented_iff form [.int 1] [] {} (by decide) rfl (var_bare _) unit_bare).mp same
  have one : plans.map (fun p => (p.name,p.init.isSome)) = [("a*/b",true)] := by decide +kernel
  obtain ⟨p,member,made⟩ := mem_map.mp (one ▸ mem_singleton_self ("a*/b",true))
  obtain ⟨name,built⟩ := mk.inj made
  have named := (noted p member built).1 p.name mem_cons_self
  rw [name,Sealed] at named
  exact absurd named (by decide)

end Plans

end StagedLisp
