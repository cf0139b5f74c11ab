import StagedLisp.Proofs.Eval.Forms
import StagedLisp.Proofs.Form.Names

/-! The symbols of an expression. Whatever names an analysis finds in an expression are among
them. -/
namespace StagedLisp

open List View Option

def Value.Hereditary (H : Value → Prop) : Prop :=
  ∀ ⦃cell head tail⦄, H (.pair cell head tail) → H head ∧ H tail

namespace Value.Hereditary

variable {H : Value → Prop} (down : Hereditary H) {e : Value} (here : H e)

include down here

theorem items {items : List Value} (listed : e.items? = some items) : ∀ part ∈ items, H part := by
  induction e generalizing items with
  | nil =>
    cases listed
    nofun
  | pair cell head tail _ ih =>
    obtain ⟨rest,found,rfl⟩ := map_eq_some_iff.mp listed
    exact forall_mem_cons.mpr ⟨(down here).1,ih (down here).2 found⟩
  | _ => cases listed

theorem form {keyword : String} {parts : List Value} (items : IsForm keyword parts e) : ∀ part ∈ parts, H part := by
  obtain ⟨_,_,rfl,listed⟩ := formItems_cons items
  exact down.items (down here).2 listed

end Value.Hereditary

def Value.Spelled (P : String → Prop) : Value → Prop
  | sym name => P name
  | pair _ head tail => head.Spelled P ∧ tail.Spelled P
  | _ => True

instance Value.spelledDecidable (P : String → Prop) [DecidablePred P] :
    (e : Value) → Decidable (e.Spelled P)
  | sym name => inferInstanceAs (Decidable (P name))
  | pair _ head tail =>
    have := spelledDecidable P head
    have := spelledDecidable P tail
    inferInstanceAs (Decidable (head.Spelled P ∧ tail.Spelled P))
  | int _ | nil | prim _ | closure _ _ _ _ | code _ | level _ => isTrue trivial

variable {P : String → Prop} {e : Value}

namespace Value.Spelled

theorem hereditary (P : String → Prop) : Hereditary (Spelled P) := fun _ _ _ both => both

variable {e : Value} (spelled : e.Spelled P)

include spelled

theorem items {items : List Value} (listed : e.items? = some items) : ∀ part ∈ items, part.Spelled P :=
  (hereditary P).items spelled listed

theorem form {keyword : String} {parts : List Value} (items : IsForm keyword parts e) :
    ∀ part ∈ parts, part.Spelled P :=
  (hereditary P).form spelled items

theorem exposed {x : String} {part : Bool} (found : exposed? e = some (x,part)) : P x := by
  fun_induction exposed? e generalizing part with
  | case1 name =>
    cases found
    exact spelled
  | case2 _ keyword _ operand _ _ ih =>
    obtain ⟨⟨y,other⟩,inside,same⟩ := map_eq_some_iff.mp found
    cases same
    exact ih spelled.2.1 inside
  | case3 _ keyword _ operand _ _ _ ih => exact ih spelled.2.1 found
  | case4 => cases found
  | case5 => cases found

theorem assignments : ∀ entry ∈ assignments e, P entry.1 ∧ entry.2.Spelled P := by
  have both : (∀ entry ∈ StagedLisp.assignments e, P entry.1 ∧ entry.2.Spelled P) ∧
      ∀ entry ∈ spineAssignments e, P entry.1 ∧ entry.2.Spelled P := by
    induction e with
    | pair cell head tail ihHead ihTail =>
      have first := (ihHead spelled.1).1
      have rest := (ihTail spelled.2).2
      refine ⟨fun entry member => ?_,fun entry member => ?_⟩
      · rw [StagedLisp.assignments] at member
        split at member
        · cases member
        · next found listed =>
          have each : ∀ part ∈ found, part.Spelled P := items spelled listed
          split at member
          · cases member
          · rcases mem_append.mp member with early | here
            · rcases mem_append.mp early with own | later
              · split at own
                · next target value =>
                  cases mem_singleton.mp own
                  exact ⟨each (.sym target) (by simp),each value (by simp)⟩
                · cases own
              · exact rest entry later
            · exact first entry here
      · rw [spineAssignments] at member
        exact (mem_append.mp member).elim (rest entry) (first entry)
    | _ => exact ⟨nofun,nofun⟩
  exact both.1

end Value.Spelled

namespace LetForm

variable {kind : LetKind}

theorem bindingsOf_entries {entries : List Value} {before bindings : List Binding}
    (read : bindingsOf kind entries before = .ok bindings) :
    (∀ entry ∈ entries, entry.symbol? = none) ∧
    ∀ b ∈ bindings, b ∈ before ∨ ∃ entry ∈ entries, entry.items? = some [.sym b.name,b.init] := by
  induction entries generalizing before with
  | nil =>
    cases read
    exact ⟨by simp,fun b member => .inl member⟩
  | cons entry entries ih =>
    obtain ⟨c,found,_,rest⟩ := bindingsOf_cons read
    obtain ⟨forms,bound⟩ := ih rest
    refine ⟨forall_mem_cons.mpr ⟨?_,forms⟩,?_⟩
    · cases entry with
      | sym => cases found
      | _ => rfl
    · intro b member
      rcases bound b member with early | ⟨there,listed,found⟩
      · rcases mem_append.mp early with early | new
        · exact .inl early
        · cases mem_singleton.mp new
          exact .inr ⟨entry,mem_cons_self,binding_items found⟩
      · exact .inr ⟨there,mem_cons_of_mem _ listed,found⟩

variable {parts : List Value} {form : LetForm} (read : ofParts kind parts = .ok form)

include read

theorem ofParts_entries : ∃ list entries, parts = [list,form.body] ∧ list.items? = some entries ∧
    (∀ entry ∈ entries, entry.symbol? = none) ∧
    ∀ b ∈ form.bindings, ∃ entry ∈ entries, entry.items? = some [.sym b.name,b.init] := by
  obtain ⟨_,list,entries,rfl,listed,found⟩ := ofParts_read read
  obtain ⟨forms,bound⟩ := bindingsOf_entries found
  exact ⟨list,entries,rfl,listed,forms,fun b member => (bound b member).resolve_left (by simp)⟩

theorem ofParts_hereditary {H : Value → Prop} (down : Value.Hereditary H) (here : ∀ part ∈ parts, H part) :
    (∀ b ∈ form.bindings, H (.sym b.name) ∧ H b.init) ∧ H form.body := by
  obtain ⟨list,entries,rfl,listed,_,bound⟩ := ofParts_entries read
  refine ⟨fun b member => ?_,here _ (by simp)⟩
  obtain ⟨entry,among,items⟩ := bound b member
  have each := down.items (down.items (here list (by simp)) listed entry among) items
  exact ⟨each _ (by simp),each _ (by simp)⟩

theorem ofParts_spelled (spelled : ∀ part ∈ parts, part.Spelled P) :
    (∀ b ∈ form.bindings, P b.name ∧ b.init.Spelled P) ∧ form.body.Spelled P :=
  ofParts_hereditary read (Value.Spelled.hereditary P) spelled

end LetForm

theorem formItems_head {items : List Value} (found : e.formItems? = some items) :
    e.items? = some items ∧ ∃ head rest, items = head :: rest := by
  cases e with
  | pair cell head tail =>
    obtain ⟨rest,_,rfl⟩ := map_eq_some_iff.mp found
    exact ⟨found,head,rest,rfl⟩
  | _ => cases found

theorem Value.items_induction {H : Value → Prop}
    (step : ∀ e, (∀ items, e.formItems? = some items → ∀ part ∈ items, H part) → H e) (e : Value) : H e := by
  have both : H e ∧ ∀ items, e.items? = some items → ∀ part ∈ items, H part := by
    induction e with
    | nil =>
      refine ⟨step _ fun items found => (by cases found),fun items found => ?_⟩
      cases found
      simp
    | pair cell head tail first rest =>
      have items (items : List Value) (found : (Value.pair cell head tail).items? = some items) :
          ∀ part ∈ items, H part := by
        obtain ⟨others,listed,rfl⟩ := map_eq_some_iff.mp found
        exact forall_mem_cons.mpr ⟨first.1,rest.2 others listed⟩
      exact ⟨step _ items,items⟩
    | _ => exact ⟨step _ fun items found => (by cases found),fun items found => (by cases found)⟩
  exact both.1

theorem View.parts_spelled {view : View} (spelled : e.Spelled P) (shown : of? e = some view) :
    ∀ part ∈ view.parts, part.2.Spelled P := by
  obtain ⟨items,listed,rfl⟩ := map_eq_some_iff.mp shown
  rcases items with _ | ⟨head,rest⟩
  · simp [ofItems,parts,Value.Spelled]
  obtain ⟨cell,tail,rfl,found⟩ := formItems_cons listed
  have each := spelled.2.items found
  intro part member
  by_cases binds : ∃ inner, ofItems (head :: rest) = .binding inner
  · obtain ⟨inner,same⟩ := binds
    obtain ⟨kind,parts,listed,read⟩ := ofItems_shows same
    cases listed
    obtain ⟨bindings,body⟩ := LetForm.ofParts_spelled read each
    rw [same] at member
    obtain ⟨⟨statement,index⟩,inside,rfl⟩ := mem_map.mp member
    have statement := fst_mem_of_mem_zipIdx inside
    rcases mem_append.mp statement with init | last
    · obtain ⟨b,bound,rfl⟩ := mem_map.mp init
      exact (bindings b bound).2
    · cases mem_singleton.mp last
      exact body
  · by_cases abstracts : ∃ params body, ofItems (head :: rest) = .lambda params body
    · obtain ⟨params,body,same⟩ := abstracts
      obtain ⟨list,listed⟩ := ofItems_shows same
      cases listed
      rw [same] at member
      cases mem_singleton.mp member
      exact each body (by simp)
    · have inside := (parts_items member (fun inner same => binds ⟨inner,same⟩)
        fun params body same => abstracts ⟨params,body,same⟩).2
      rcases mem_cons.mp inside with same | later
      · exact same ▸ spelled.1
      · exact each _ later

theorem Value.Spelled.free (spelled : e.Spelled P) {x : String} (free : x ∈ freeVariables e) : P x := by
  have walk (budget : Nat) (bound : List String) (e : Value) (spelled : e.Spelled P)
      (free : x ∈ freeNames budget bound [] e) : P x := by
    induction budget generalizing bound e with
    | zero => cases free
    | succ budget ih =>
      rcases mem_freeNames_succ.mp free with ⟨rfl,_⟩ | ⟨view,shown,part,member,inside⟩
      · exact spelled
      · exact ih _ part.2 (parts_spelled spelled shown part member) inside
  exact walk _ _ e spelled free

end StagedLisp
