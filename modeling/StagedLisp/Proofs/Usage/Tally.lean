import StagedLisp.Proofs.Form.Lookup
import StagedLisp.Proofs.Usage.Visits

/-! What a walk through the statements of a form notes stays noted. So a name that a statement mentions
within the analysis depth is counted as used, and a statement that is nested deeper is counted as
skipped in part. -/
namespace StagedLisp

open List Tally

theorem LetForm.mem_zipIdx {form : LetForm} {e : Value} {j : Nat} :
    (e,j) ∈ form.statements.zipIdx ↔ j ≤ form.bodyIndex ∧ form.statement j = e := by
  rw [mem_zipIdx_iff_getElem?]
  constructor
  · intro found
    have inside : j ≤ form.bodyIndex := by
      have bound := lt_of_getElem? found
      simp only [statements,length_append,length_map,length_singleton] at bound
      exact Nat.le_of_lt_succ bound
    exact ⟨inside,Option.some.inj ((statement_at inside).symm.trans found)⟩
  · rintro ⟨inside,rfl⟩
    exact statement_at inside

namespace Tally

def Used (t : Tally) (x : String) : Prop := ∀ u ∈ t.usages, u.name = x → 0 < u.uses

/-- A change of usages that forgets neither names nor uses. -/
def Adds (f : Usage → Usage) : Prop := ∀ u, (f u).name = u.name ∧ u.uses ≤ (f u).uses

theorem skip_adds (depth : Nat) : Adds fun u => { u with
    escape := .everywhere, captured := true, uses := u.uses + 1, lastDepth := depth } :=
  fun _ => ⟨rfl,Nat.le_succ _⟩

/-- A property of tallies that no step of a walk undoes. -/
structure Lasting (P : Tally → Prop) : Prop where
  update : ∀ t hidden y f, Adds f → P t → P (t.update hidden y f)
  skipped : ∀ t, P t → P { t with skipped := t.skipped + 1 }

variable {t : Tally} {x y : String} {hidden : List String} {budget : Nat} {f : Usage → Usage} {inBody : Bool}

theorem used_lasting (x : String) : Lasting (Used · x) where
  update t hidden y f adds used := by
    unfold update
    split
    · exact used
    · intro u member named
      obtain ⟨v,listed,rfl⟩ := mem_map.mp member
      split at named
      · next touched =>
        rw [if_pos touched]
        exact (used v listed ((adds v).1.symm.trans named)).trans_le (adds v).2
      · next other =>
        rw [if_neg other]
        exact used v listed named
  skipped _ used := used

theorem skipped_lasting : Lasting fun t => 0 < t.skipped where
  update t hidden y f adds skipped := by
    unfold update
    split <;> exact skipped
  skipped _ _ := Nat.succ_pos _

theorem usage?_update (named : ∀ u, (f u).name = u.name) (y : String) : (t.update hidden y f).usage? x =
      if x = y ∧ y ∉ hidden then (t.usage? x).map f else t.usage? x := by
  unfold update
  by_cases covered : y ∈ hidden
  · simp [covered]
  · have kept : ((fun u : Usage => u.name == x) ∘ fun u => if u.name == y then f u else u) =
        fun u => u.name == x := by
      funext u
      simp only [Function.comp_apply]
      split
      · rw [named]
      · rfl
    have visible : hidden.contains y = false := by simpa using covered
    simp only [visible,Bool.false_eq_true,if_false,usage?,find?_map,kept]
    cases found : t.usages.find? (·.name == x) with
    | none => simp
    | some u =>
      have same : u.name = x := by simpa using find?_some found
      by_cases here : x = y <;> simp [same,here,covered]

theorem tracked_lasting (x : String) : Lasting fun t => (t.usage? x).isSome where
  update t hidden y f adds tracked := by
    rw [usage?_update fun u => (adds u).1]
    split
    · rwa [Option.isSome_map]
    · exact tracked
  skipped _ tracked := tracked

theorem update_used (seen : x ∉ hidden) (counts : ∀ u, 0 < (f u).uses) : (t.update hidden x f).Used x := by
  have visible : hidden.contains x = false := by simpa using seen
  unfold update
  rw [visible]
  intro u member named
  obtain ⟨v,listed,rfl⟩ := mem_map.mp member
  split at named
  · next touched =>
    rw [if_pos touched]
    exact counts v
  · next other => exact absurd (beq_iff_eq.mpr named) other

theorem not_used (unused : (t.usage? x).any (·.uses == 0)) : ¬ t.Used x := by
  intro used
  cases found : t.usage? x with
  | none => simp [found] at unused
  | some u =>
    have named : u.name = x := by simpa using find?_some found
    have positive := used u (mem_of_find?_eq_some found) named
    have zero : u.uses = 0 := by simpa [found] using unused
    omega

section Walk

variable {P : Tally → Prop} {names : List String}

theorem foldl_keeps {α : Type} {step : Tally → α → Tally}
    (keeps : ∀ t a, P t → P (step t a)) (parts : List α) (holds : P t) :
    P (parts.foldl step t) := by
  induction parts generalizing t with
  | nil => exact holds
  | cons a parts ih => exact ih (keeps t a holds)

/-- A walk that brings something about in one of its parts, and undoes it in none, has done so in the
end. -/
theorem foldl_reaches {α : Type} {step : Tally → α → Tally}
    (keeps : ∀ t a, P t → P (step t a)) {parts : List α} {a : α} (member : a ∈ parts)
    (reaches : ∀ t, P (step t a)) : P (parts.foldl step t) := by
  induction parts generalizing t with
  | nil => cases member
  | cons b parts ih =>
    rcases mem_cons.mp member with rfl | member
    · exact foldl_keeps keeps parts (reaches t)
    · exact ih member

theorem track_tracked (t : Tally) (name x : String) (tracked : x = name ∨ (t.usage? x).isSome) :
    ((t.track name).usage? x).isSome := by
  unfold track
  split
  · next known =>
    rcases tracked with rfl | tracked
    · simpa [usage?] using known
    · exact tracked
  · rcases tracked with rfl | tracked
    · simp [usage?]
    · simp only [usage?,find?_append,Option.isSome_or]
      rw [usage?] at tracked
      rw [tracked]
      rfl

theorem tracking_tracked (listed : x ∈ names) : ((tracking names).usage? x).isSome :=
  foldl_reaches (P := fun t => (t.usage? x).isSome) (fun t name kept => track_tracked t name x (.inr kept)) listed
    fun t => track_tracked t x x (.inl rfl)

variable (lasting : Lasting P)

include lasting

theorem Lasting.skip (depth : Nat) (part : Value) (holds : P t) : P (t.skip hidden depth part) := by
  apply lasting.skipped
  exact foldl_keeps (fun _ _ kept => lasting.update _ _ _ _ (skip_adds depth) kept) _ holds

variable {depth budget : Nat} {e : Value} {inBody : Bool}

theorem Lasting.count (budget : Nat) (holds : P t) : P (count budget depth inBody hidden t e) := by
  induction budget generalizing depth inBody hidden t e with
  | zero => exact lasting.skip depth e holds
  | succ budget ih =>
    cases form : e.symbol? with
    | none =>
      rw [count_form budget depth inBody form]
      exact foldl_keeps (fun _ _ kept => ih kept) _ holds
    | some name =>
      obtain rfl := Value.eq_sym form
      exact lasting.update _ _ _ _ (fun u => ⟨rfl,Nat.le_succ _⟩) holds

theorem Lasting.store (p : Position) (holds : P t) : P (store hidden t p) := by
  unfold Tally.store
  split
  · split
    · exact lasting.update _ _ _ _ (fun u => ⟨rfl,le_rfl⟩) holds
    · exact holds
  · exact holds

theorem Lasting.spread (budget : Nat) {outer : Escape} (holds : P t) :
    P (spread budget depth hidden outer t e) := by
  induction budget generalizing depth hidden outer t e with
  | zero => exact lasting.skip depth e holds
  | succ budget ih =>
    cases form : e.symbol? with
    | none =>
      rw [spread_form budget depth outer form]
      exact foldl_keeps (fun _ p kept => ih (lasting.store p kept)) _ holds
    | some name =>
      obtain rfl := Value.eq_sym form
      exact lasting.update _ _ _ _ (fun u => ⟨rfl,le_rfl⟩) holds

theorem Lasting.count_visit {v : Visit} (visited : v ∈ e.visits)
    (reaches : ∀ inBody t, P (Tally.count budget (depth + 1) inBody (hidden ++ v.names) t v.part)) :
    P (Tally.count (budget + 1) depth inBody hidden t e) := by
  have form : e.symbol? = none := by
    cases e with
    | sym => cases visited
    | _ => rfl
  rw [count_form budget depth inBody form]
  exact foldl_reaches (fun _ _ kept => lasting.count budget kept) visited fun t => reaches _ t

theorem Lasting.count_part {view : View} {part : Value} (shown : View.of? e = some view)
    (listed : (names,part) ∈ view.parts)
    (reaches : ∀ inBody t, P (Tally.count budget (depth + 1) inBody (hidden ++ names) t part)) :
    P (Tally.count (budget + 1) depth inBody hidden t e) := by
  obtain ⟨v,visited,rfl,rfl⟩ := visit_of_part shown listed
  exact lasting.count_visit visited reaches

theorem Lasting.ofForm {form : LetForm} {j : Nat} (inside : j ≤ form.bodyIndex)
    (counts : ∀ t, P (Tally.count depth 1 false (hiddenIn form j) t (form.statement j))) :
    P (ofForm form depth) := by
  have member : (form.statement j,j) ∈ form.statements.zipIdx :=
    mem_zipIdx_iff_getElem?.mpr (LetForm.statement_at inside)
  apply foldl_keeps fun _ _ kept => lasting.spread depth kept
  exact foldl_reaches (fun _ _ kept => lasting.count depth kept) member counts

end Walk

variable {depth j : Nat} {form : LetForm}

theorem count_used {outer bound : List String} {e : Value} (seen : y ∉ outer)
    (mentioned : y ∈ freeNames budget bound [] e) :
    (count budget depth inBody (outer ++ bound) t e).Used y := by
  induction budget generalizing depth inBody bound t e with
  | zero => simp [freeNames] at mentioned
  | succ budget ih =>
    rcases mem_freeNames_succ.mp mentioned with ⟨rfl,free⟩ | ⟨view,shown,⟨names,part⟩,listed,inside⟩
    · apply update_used
      · simp [seen,free]
      · exact fun u => Nat.succ_pos _
    · apply (used_lasting y).count_part shown listed
      intro inBody t
      rw [append_assoc]
      exact ih inside

theorem skip_used {part : Value} (seen : y ∉ hidden) (mentioned : y ∈ mentionedNames part) :
    (t.skip hidden depth part).Used y := by
  apply foldl_reaches (P := (Used · y))
    (fun _ _ kept => (used_lasting y).update _ _ _ _ (skip_adds depth) kept) mentioned
  exact fun t => update_used seen fun u => Nat.succ_pos _

theorem hiddenIn_of_visible (distinct : form.names.Nodup) (visible : y ∈ form.visibleIn j) :
    y ∉ hiddenIn form j := by
  unfold LetForm.visibleIn at visible
  unfold hiddenIn
  cases kind : form.kind with
  | recursive => exact not_mem_nil
  | plain =>
    rw [kind] at visible
    exact fun later => disjoint_take_drop distinct le_rfl visible later

theorem ofForm_used (distinct : form.names.Nodup) (inside : j ≤ form.bodyIndex)
    (visible : y ∈ form.visibleIn j) (mentioned : y ∈ freeNames depth [] [] (form.statement j)) :
    (ofForm form depth).Used y := by
  apply (used_lasting y).ofForm inside
  intro t
  have counted : (count depth 1 false (hiddenIn form j ++ []) t (form.statement j)).Used y :=
    count_used (hiddenIn_of_visible distinct visible) mentioned
  rwa [append_nil] at counted

/-- A count that leaves nothing out goes as deep as the expression is nested. -/
theorem count_nested {e : Value} (unskipped : (count budget depth inBody hidden t e).skipped = 0) :
    ∃ less, budget = less + 1 ∧ NestedWithin less e := by
  induction budget generalizing depth inBody hidden t e with
  | zero => cases unskipped
  | succ budget ih =>
    refine ⟨budget,rfl,nestedWithin_iff_parts.mpr ?_⟩
    rintro view shown ⟨names,part⟩ listed
    by_contra deep
    have skipped : 0 < (count (budget + 1) depth inBody hidden t e).skipped := by
      apply skipped_lasting.count_part shown listed
      exact fun inBody t => Nat.pos_of_ne_zero fun none => deep (ih none)
    omega

theorem ofForm_nested (unskipped : (ofForm form depth).skipped = 0) (inside : j ≤ form.bodyIndex) :
    ∃ less, depth = less + 1 ∧ NestedWithin less (form.statement j) := by
  by_contra deep
  have skipped : 0 < (ofForm form depth).skipped := by
    apply skipped_lasting.ofForm inside
    exact fun t => Nat.pos_of_ne_zero fun none => deep (count_nested none)
  omega

end Tally

end StagedLisp
