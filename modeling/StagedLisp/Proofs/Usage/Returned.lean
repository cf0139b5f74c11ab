import Mathlib.Data.List.Chain
import StagedLisp.Proofs.Analysis
import StagedLisp.Proofs.Form.Provenance
import StagedLisp.Proofs.Usage.Tally

/-! Bindings whose values leave a block. Where no part is left out for its depth, the escape of a name is
found exactly: it stays inside unless some statement exports it. The initialiser of a binding that is
another name for an earlier one exports this one only if the body itself may return the binding, and so
the escape of the result goes back along renamings by a single step. -/
namespace StagedLisp

open List Tally LetForm View Value

/-- The value of the name leaves the expression, if the value of the expression escapes by `outer`. -/
inductive Exports (x : String) : Escape → Value → Prop where
  | name {outer} (leaves : outer ≠ .inside) : Exports x outer (.sym x)
  | part {outer e p} (listed : p ∈ e.positions outer)
      (free : x ∉ p.names) (within : Exports x p.escape p.part) : Exports x outer e

/-- A form in the expression binds the name again. -/
inductive Rebinds (x : String) : Value → Prop where
  | here {e inner} (shown : of? e = some (.binding inner)) (bound : x ∈ inner.names) : Rebinds x e
  | inside {e v} (visited : v ∈ e.visits) (within : Rebinds x v.part) : Rebinds x e

section Exports

variable {x y : String} {outer : Escape} {e : Value}

theorem exports_symbol : Exports x outer (.sym y) ↔ x = y ∧ outer ≠ .inside := by
  refine ⟨fun exported => ?_,?_⟩
  · cases exported with
    | name leaves => exact ⟨rfl,leaves⟩
    | part listed => cases listed
  · rintro ⟨rfl,leaves⟩
    exact .name leaves

theorem exports_form (form : e.symbol? = none) : Exports x outer e ↔
    ∃ p ∈ e.positions outer, x ∉ p.names ∧ Exports x p.escape p.part := by
  refine ⟨fun exported => ?_,fun ⟨p,listed,free,within⟩ => .part listed free within⟩
  cases exported with
  | name => cases form
  | part listed free within => exact ⟨_,listed,free,within⟩

theorem statementEscape_body (inner : LetForm) : statementEscape inner outer inner.bodyIndex = outer := by
  simp [statementEscape,bodyIndex]

/-- A name that an expression may return is exported with its value, unless it is bound again on the way. -/
theorem exports_of_returned (returned : x ∈ returnedNames e) (leaves : outer ≠ .inside) :
    Exports x outer e ∨ Rebinds x e := by
  induction e using items_induction generalizing outer with
  | step e ih =>
    cases found : e.formItems? with
    | none =>
      cases e with
      | sym name =>
        cases mem_singleton.mp returned
        exact .inl (.name leaves)
      | pair cell head tail => simp [returnedNames,selected,of?,found] at returned
      | _ => simp [returnedNames,selected] at returned
    | some items =>
      obtain ⟨_,head,rest,rfl⟩ := formItems_head found
      have shown := of?_items found
      have quiet (none : resultParts (ofItems (head :: rest)) = none) : False := by
        obtain ⟨cell,tail,rfl,_⟩ := formItems_cons found
        simp [returnedNames,selected,shown,none] at returned
      -- The items that are returned are at positions from which a value leaves the form.
      have result {skip : Nat} (start : resultParts (ofItems (head :: rest)) = some (skip + 1))
          (places : ∀ part ∈ rest.drop skip, ∃ p ∈ e.positions outer,
            p.part = part ∧ p.escape ≠ .inside ∧ x ∉ p.names) : Exports x outer e ∨ Rebinds x e := by
        obtain ⟨part,member,inside⟩ := (mem_selected_form found start).mp returned
        obtain ⟨p,listed,rfl,escapes,free⟩ := places part member
        have among := mem_cons_of_mem head (mem_of_mem_drop member)
        refine (ih _ found p.part among inside escapes).imp (.part listed free) fun rebound => ?_
        obtain ⟨v,visited,_,same⟩ := visit_of_position listed
        exact .inside visited (same ▸ rebound)
      cases view : View.ofItems (head :: rest) with
      | conditional test branches =>
        obtain ⟨rfl,rfl⟩ := List.cons.inj (ofItems_shows view)
        refine result (by rw [view]; rfl) fun part member => ?_
        refine ⟨{ part, escape := outer },?_,rfl,leaves,not_mem_nil⟩
        simp only [positions,shown,view]
        exact mem_append_right _ (mem_map_of_mem member)
      | wrapper keyword operand =>
        obtain ⟨rfl,rfl⟩ := List.cons.inj (ofItems_shows view)
        by_cases silent : keyword == "EM"
        · exact (quiet (by rw [view,resultParts,if_pos silent])).elim
        · refine result (by rw [view,resultParts,if_neg silent]) fun part member => ?_
          refine ⟨{ part, escape := outer },?_,rfl,leaves,not_mem_nil⟩
          simp only [positions,shown,view]
          exact mem_map_of_mem member
      | binding inner =>
        obtain ⟨kind,parts,same,read⟩ := ofItems_shows view
        obtain ⟨list,_,rfl,_⟩ := ofParts_entries read
        obtain ⟨rfl,rfl⟩ := List.cons.inj same
        by_cases bound : x ∈ inner.names
        · exact .inr (.here (view ▸ shown) bound)
        · refine result (by rw [view]; rfl) fun part member => ?_
          cases mem_singleton.mp member
          refine ⟨{ names := inner.visibleIn inner.bodyIndex, part := inner.body, escape := outer },
            ?_,rfl,leaves,fun visible => bound (mem_names_of_visible visible)⟩
          simp only [positions,shown,view]
          refine mem_map.mpr ⟨(inner.body,inner.bodyIndex),?_,?_⟩
          · refine mem_zipIdx_iff_getElem?.mpr ?_
            simp [statements,bodyIndex]
          · rw [statementEscape_body]
      | misfit keyword parts =>
        obtain ⟨rfl,rfl⟩ := List.cons.inj (ofItems_shows view)
        by_cases letForm : keyword == "let" || keyword == "letrec"
        · by_cases two : rest.length == 2
          · refine result (by rw [view,resultParts,letForm,two]; rfl) fun part member => ?_
            refine ⟨{ part, escape := .everywhere },?_,rfl,by simp,not_mem_nil⟩
            simp only [positions,shown,view,letForm,if_true]
            exact mem_map_of_mem (mem_of_mem_drop member)
          · exact (quiet (by simp [view,resultParts,two])).elim
        · exact (quiet (by simp [view,resultParts,letForm])).elim
      | _ => exact (quiet (by rw [view]; rfl)).elim

end Exports

theorem Escape.join_ne_inside {a b : Escape} : a.join b ≠ .inside ↔ a ≠ .inside ∨ b ≠ .inside := by
  cases a <;> cases b <;> decide

namespace Tally

/-- The name is found to leave the block. -/
def Escapes (t : Tally) (x : String) : Prop := ∃ u, t.usage? x = some u ∧ u.escape ≠ .inside

section Walks

variable {t : Tally} {x : String} {hidden : List String}

theorem update_escapes {f : Usage → Usage} (named : ∀ u, (f u).name = u.name)
    (kept : ∀ u, (f u).escape = u.escape) (y : String) :
    (t.update hidden y f).Escapes x ↔ t.Escapes x := by
  unfold Escapes
  rw [usage?_update named]
  split
  · simp [kept]
  · rfl

theorem spread_symbol (tracked : (t.usage? x).isSome) (y : String) (outer : Escape) :
    (t.update hidden y fun u => { u with escape := u.escape.join outer }).Escapes x ↔
      t.Escapes x ∨ x ∉ hidden ∧ Exports x outer (.sym y) := by
  obtain ⟨u,found⟩ := Option.isSome_iff_exists.mp tracked
  unfold Escapes
  rw [usage?_update fun _ => by rfl,exports_symbol,found]
  by_cases same : x = y
  · subst same
    by_cases free : x ∈ hidden
    · simp [free]
    · simp [free,Escape.join_ne_inside]
  · simp [same]

/-- A walk that leaves nothing out lets a name escape exactly if one of its steps does. -/
theorem foldl_escapes {α : Type} {step : Tally → α → Tally} {parts : List α} {Q : α → Prop}
    (lasting : ∀ {P : Tally → Prop}, Lasting P → ∀ t a, P t → P (step t a))
    (steps : ∀ a ∈ parts, ∀ t, (t.usage? x).isSome → (step t a).skipped = 0 →
      ((step t a).Escapes x ↔ t.Escapes x ∨ Q a))
    (tracked : (t.usage? x).isSome) (whole : (parts.foldl step t).skipped = 0) :
    (parts.foldl step t).Escapes x ↔ t.Escapes x ∨ ∃ a ∈ parts, Q a := by
  induction parts generalizing t with
  | nil => simp
  | cons a parts ih =>
    obtain ⟨first,rest⟩ := forall_mem_cons.mp steps
    have unskipped : (step t a).skipped = 0 := by
      by_contra skipped
      have later : 0 < (parts.foldl step (step t a)).skipped :=
        foldl_keeps (P := fun t => 0 < t.skipped) (lasting skipped_lasting) parts (Nat.pos_of_ne_zero skipped)
      exact later.ne' whole
    rw [foldl_cons,ih rest (lasting (tracked_lasting x) t a tracked) whole,first t tracked unskipped]
    simp [or_assoc]

variable {budget depth : Nat} {inBody : Bool} {outer : Escape} {e : Value}

theorem count_escapes (tracked : (t.usage? x).isSome) (whole : (count budget depth inBody hidden t e).skipped = 0) :
    (count budget depth inBody hidden t e).Escapes x ↔ t.Escapes x := by
  induction budget generalizing depth inBody hidden t e with
  | zero => cases whole
  | succ budget ih =>
    cases form : e.symbol? with
    | none =>
      rw [count_form budget depth inBody form] at whole ⊢
      have none := foldl_escapes (Q := fun _ : Visit => False) (fun lasting _ _ kept => lasting.count budget kept)
        (fun v _ t tracked whole => by rw [ih tracked whole,or_false]) tracked whole
      simpa using none
    | some y =>
      obtain rfl := eq_sym form
      exact update_escapes (by intro; rfl) (by intro; rfl) y

theorem store_escapes (p : Position) : (store hidden t p).Escapes x ↔ t.Escapes x := by
  unfold store
  split
  · split
    · exact update_escapes (by intro; rfl) (by intro; rfl) _
    · rfl
  · rfl

theorem spread_escapes (tracked : (t.usage? x).isSome)
    (whole : (spread budget depth hidden outer t e).skipped = 0) :
    (spread budget depth hidden outer t e).Escapes x ↔ t.Escapes x ∨ x ∉ hidden ∧ Exports x outer e := by
  induction budget generalizing depth hidden outer t e with
  | zero => cases whole
  | succ budget ih =>
    cases form : e.symbol? with
    | none =>
      rw [spread_form budget depth outer form] at whole ⊢
      rw [foldl_escapes (Q := fun p : Position => x ∉ hidden ++ p.names ∧ Exports x p.escape p.part)
        (fun lasting _ p kept => lasting.spread budget (lasting.store p kept)) ?_ tracked whole,
        exports_form form]
      · simp only [mem_append,not_or]
        refine or_congr_right ⟨?_,?_⟩
        · rintro ⟨p,listed,⟨outside,free⟩,within⟩
          exact ⟨outside,p,listed,free,within⟩
        · rintro ⟨outside,p,listed,free,within⟩
          exact ⟨p,listed,⟨outside,free⟩,within⟩
      · intro p _ t tracked whole
        rw [ih ((tracked_lasting x).store p tracked) whole,store_escapes]
    | some y =>
      obtain rfl := eq_sym form
      exact spread_symbol tracked y outer

theorem tracking_inside (names : List String) : ¬ (tracking names).Escapes x := by
  rintro ⟨u,found,leaves⟩
  have fresh : ∀ u ∈ (tracking names).usages, u.escape = .inside := by
    refine foldl_keeps (P := fun t => ∀ u ∈ t.usages, u.escape = .inside) (fun t name fresh => ?_) names (by simp)
    unfold track
    split
    · exact fresh
    · intro u member
      rcases mem_append.mp member with old | new
      · exact fresh u old
      · cases mem_singleton.mp new
        rfl
  exact leaves (fresh u (mem_of_find?_eq_some found))

end Walks

def counted (form : LetForm) (depth : Nat) : Tally :=
  form.statements.zipIdx.foldl (fun t entry => count depth 1 false (hiddenIn form entry.2) t entry.1)
    (tracking form.names)

/-- A statement of the form lets the value of the name out. -/
def ExportedBy (form : LetForm) (x : String) (j : Nat) : Prop :=
  x ∉ hiddenIn form j ∧ Exports x (statementEscape form .argument j) (form.statement j)

section Form

variable {form : LetForm} {x : String} {depth : Nat}

theorem ofForm_counted : ofForm form depth = form.statements.zipIdx.foldl (fun t entry =>
    spread depth 1 (hiddenIn form entry.2) (statementEscape form .argument entry.2) t entry.1)
    (counted form depth) := rfl

theorem counted_inside (bound : x ∈ form.names) (whole : (counted form depth).skipped = 0) :
    ¬ (counted form depth).Escapes x := by
  have none := foldl_escapes (Q := fun _ : Value × Nat => False) (fun lasting _ _ kept => lasting.count depth kept)
    (fun entry _ t tracked whole => by rw [count_escapes tracked whole,or_false])
    (tracking_tracked bound) whole
  rw [counted,none]
  simp [tracking_inside]

/-- If nothing is left out, exactly the bindings escape that some statement exports. -/
theorem ofForm_escapes_iff (bound : x ∈ form.names) (whole : (ofForm form depth).skipped = 0) :
    (ofForm form depth).Escapes x ↔ ∃ j ≤ form.bodyIndex, ExportedBy form x j := by
  have tracked : ((counted form depth).usage? x).isSome :=
    foldl_keeps (P := fun t => (t.usage? x).isSome) (fun _ _ kept => (tracked_lasting x).count depth kept)
      _ (tracking_tracked bound)
  have started : (counted form depth).skipped = 0 := by
    by_contra skipped
    have later : 0 < (ofForm form depth).skipped :=
      foldl_keeps (P := fun t => 0 < t.skipped) (fun _ _ kept => skipped_lasting.spread depth kept) _
        (Nat.pos_of_ne_zero skipped)
    exact later.ne' whole
  rw [ofForm_counted] at whole ⊢
  rw [foldl_escapes (Q := fun entry : Value × Nat => x ∉ hiddenIn form entry.2 ∧
      Exports x (statementEscape form .argument entry.2) entry.1)
    (fun lasting _ _ kept => lasting.spread depth kept)
    (fun entry _ t tracked whole => spread_escapes tracked whole) tracked whole,
    or_iff_right (counted_inside bound started)]
  constructor
  · rintro ⟨⟨e,j⟩,member,exported⟩
    obtain ⟨inside,rfl⟩ := mem_zipIdx.mp member
    exact ⟨j,inside,exported⟩
  · rintro ⟨j,inside,exported⟩
    exact ⟨(form.statement j,j),mem_zipIdx.mpr ⟨inside,rfl⟩,exported⟩

end Form

end Tally

/-- The first binding is another name for the second, which comes before it. -/
def LetForm.Renames (form : LetForm) (b c : Binding) : Prop :=
  ∃ i j : Nat, j < i ∧ form.bindings[i]? = some b ∧ form.bindings[j]? = some c ∧ b.init = .sym c.name

namespace LetForm.Renames

variable {form : LetForm} {b c : Binding} (renames : form.Renames b c)

include renames

theorem bound : c.name ∈ form.names := by
  obtain ⟨_,_,_,_,found,_⟩ := renames
  exact mem_map_of_mem (mem_of_getElem? found)

/-- The initialiser exports what it names exactly if the body may return the binding itself. -/
theorem exportedBy_iff (plain : form.kind = .plain) (distinct : form.names.Nodup) {i : Nat}
    (found : form.bindings[i]? = some b) :
    ExportedBy form c.name i ↔ b.name ∈ returnedNames form.body := by
  obtain ⟨i',j,before,found',earlier,init⟩ := renames
  obtain rfl : i = i' :=
    (getElem?_inj (lt_of_getElem? (name_at found)) distinct).mp ((name_at found).trans (name_at found').symm)
  have visible : c.name ∉ hiddenIn form i := by
    apply hiddenIn_of_visible distinct
    rw [visibleIn_plain plain]
    exact name_mem_take earlier before
  have inside : i ≤ form.bodyIndex := (List.getElem?_eq_some_iff.mp found).1.le
  have statement : form.statement i = .sym c.name :=
    Option.some.inj ((statement_at inside).symm.trans ((init_at found).trans (congrArg some init)))
  rw [ExportedBy,statement,exports_symbol,statementEscape,found]
  simp [visible,plain]

/-- A binding that has another name escapes if the body may return it under that name, and otherwise only
through another statement. -/
theorem escapes_iff (plain : form.kind = .plain) (distinct : form.names.Nodup) {depth : Nat}
    (whole : (ofForm form depth).skipped = 0) :
    (ofForm form depth).Escapes c.name ↔ b.name ∈ returnedNames form.body ∨
      ∃ j ≤ form.bodyIndex, form.bindings[j]? ≠ some b ∧ ExportedBy form c.name j := by
  rw [ofForm_escapes_iff renames.bound whole]
  constructor
  · rintro ⟨j,inside,exported⟩
    by_cases here : form.bindings[j]? = some b
    · exact .inl ((renames.exportedBy_iff plain distinct here).mp exported)
    · exact .inr ⟨j,inside,here,exported⟩
  · rintro (returned | ⟨j,inside,_,exported⟩)
    · have ⟨i,_,_,found,_⟩ := renames
      exact ⟨i,(List.getElem?_eq_some_iff.mp found).1.le,
        (renames.exportedBy_iff plain distinct found).mpr returned⟩
    · exact ⟨j,inside,exported⟩

end LetForm.Renames

theorem Analysis.not_stackCandidate {a : Analysis} {x : String} (escapes : a.usage.Escapes x) :
    a.isStackCandidate x = false := by
  obtain ⟨u,found,leaves⟩ := escapes
  simp [isStackCandidate,found,leaves]

/-- A binding that the body of a plain form may return escapes unless it is bound again there, and so does
the binding it is another name for. Further renamings do not pass the escape on: each of them does so only
if the body may return the new name, too. -/
theorem Tally.renamed_escapes (form : LetForm) (known : Table Shape) (options : Options)
    (plain : form.kind = .plain) (distinct : form.names.Nodup)
    (whole : (ofForm form options.analysisDepth).skipped = 0) {first : Binding} {rest : List Binding}
    (bound : first ∈ form.bindings) (returned : first.name ∈ returnedNames form.body)
    (chain : (first :: rest).IsChain form.Renames) :
    ((ofForm form options.analysisDepth).Escapes first.name ∨ Rebinds first.name form.body) ∧
    (∀ c ∈ rest.head?, (ofForm form options.analysisDepth).Escapes c.name) ∧
    (∀ b c, [b,c] <:+: first :: rest → ((ofForm form options.analysisDepth).Escapes c.name ↔
      b.name ∈ returnedNames form.body ∨
        ∃ j ≤ form.bodyIndex, form.bindings[j]? ≠ some b ∧ ExportedBy form c.name j)) ∧
    ∀ b ∈ first :: rest, (ofForm form options.analysisDepth).Escapes b.name →
      (Analysis.ofForm form known options).isStackCandidate b.name = false := by
  have link {b c : Binding} (consecutive : [b,c] <:+: first :: rest) : form.Renames b c :=
    isChain_pair.mp ( List.IsChain.infix chain consecutive)
  refine ⟨?_,?_,fun b c consecutive => (link consecutive).escapes_iff plain distinct whole,?_⟩
  · rw [ofForm_escapes_iff (mem_map_of_mem bound) whole]
    have leaves : Exports first.name .argument form.body ∨ Rebinds first.name form.body :=
      exports_of_returned returned (by simp)
    refine leaves.imp_left fun exported => ⟨form.bodyIndex,le_rfl,?_,?_⟩
    · have none : hiddenIn form form.bodyIndex = [] := by
        simp [hiddenIn,plain,LetForm.bodyIndex,LetForm.names]
      simp [none]
    · rwa [statementEscape_body,form.statement_body]
  · intro c second
    obtain ⟨others,rfl⟩ : ∃ others, rest = c :: others := head?_eq_some_iff.mp second
    have consecutive : [first,c] <:+: first :: c :: others := ⟨[],others,rfl⟩
    exact ((link consecutive).escapes_iff plain distinct whole).mpr (.inl returned)
  · intro b _ escapes
    exact Analysis.not_stackCandidate (by rwa [Analysis.ofForm_usage])

/-- `(let ((x 1) (y x) (z y)) body)` -/
def renamedTwice (body : Value) : LetForm where
  kind := .plain
  bindings := [⟨"x",.int 1⟩,⟨"y",.sym "x"⟩,⟨"z",.sym "y"⟩]
  body

theorem renamedTwice_chain (body : Value) :
    [⟨"z",.sym "y"⟩,⟨"y",.sym "x"⟩,⟨"x",.int 1⟩].IsChain (renamedTwice body).Renames :=
  .cons_cons ⟨2,1,by decide,rfl,rfl,rfl⟩ (.cons_cons ⟨1,0,by decide,rfl,rfl,rfl⟩ (.singleton _))

/-- In `(let ((x 1) (y x) (z y)) z)` the value of `x` is returned, but is found to stay inside. -/
theorem Tally.returned_stays_inside :
    [⟨"z",.sym "y"⟩,⟨"y",.sym "x"⟩,⟨"x",.int 1⟩].IsChain (renamedTwice (.sym "z")).Renames ∧
    "z" ∈ returnedNames (renamedTwice (.sym "z")).body ∧
    (ofForm (renamedTwice (.sym "z")) 256).skipped = 0 ∧
    ((ofForm (renamedTwice (.sym "z")) 256).usage? "x").map Usage.escape = some .inside ∧
    (Analysis.ofForm (renamedTwice (.sym "z")) [] {}).isStackCandidate "x" = true :=
  ⟨renamedTwice_chain _,by decide,by decide +kernel,by decide +kernel,by decide +kernel⟩

/-- `(let ((x 1) (y x) (z y)) (if 1 y z))` -/
def returnedTwice : LetForm := renamedTwice (.pair 3 (.sym "if") (.pair 2 (.int 1)
  (.pair 1 (.sym "y") (.pair 0 (.sym "z") .nil))))

/-- Where it is returned under the name `y`, too, the value of `x` is found to escape. -/
theorem Tally.returned_twice_escapes : returnedTwice.names.Nodup ∧
    (ofForm returnedTwice 256).skipped = 0 ∧ "z" ∈ returnedNames returnedTwice.body ∧
    (ofForm returnedTwice 256).Escapes "y" ∧ (ofForm returnedTwice 256).Escapes "x" := by
  have distinct : returnedTwice.names.Nodup := by decide
  have whole : (ofForm returnedTwice 256).skipped = 0 := by decide +kernel
  have returned : "z" ∈ returnedNames returnedTwice.body := by decide +kernel
  obtain ⟨_,second,later,_⟩ := renamed_escapes returnedTwice [] {} rfl distinct whole
    (by simp [returnedTwice,renamedTwice]) returned (renamedTwice_chain _)
  refine ⟨distinct,whole,returned,second _ rfl,?_⟩
  exact (later ⟨"y",.sym "x"⟩ ⟨"x",.int 1⟩ ⟨[⟨"z",.sym "y"⟩],[],rfl⟩).mpr (.inl (by decide +kernel))

end StagedLisp
