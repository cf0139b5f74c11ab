import StagedLisp.Form.Let
import StagedLisp.Proofs.Value.Cells

/-! What reading a let form guarantees: its names are distinct, and the cells of its statements are
cells of the form, each at a place of its own. -/
theorem StagedLisp.lt_of_getElem? {α : Type} {l : List α} {i : Nat} {a : α}
    (found : l[i]? = some a) : i < l.length :=
  (List.getElem?_eq_some_iff.mp found).1

namespace StagedLisp.LetForm

open List

def cells (form : LetForm) : List Nat := form.statements.flatMap Value.cells

variable {kind : LetKind} {entries : List Value} {before bindings : List Binding} {form : LetForm}
  {b : Binding} {entry : Value} {i : Nat}

theorem binding_items (read : binding kind entry = .ok b) : entry.items? = some [.sym b.name,b.init] := by
  unfold binding at read
  split at read
  · next items =>
    cases read
    exact items
  · cases read

theorem bindingsOf_cons (read : bindingsOf kind (entry :: entries) before = .ok bindings) :
    ∃ b, binding kind entry = .ok b ∧ b.name ∉ before.map Binding.name ∧
      bindingsOf kind entries (before ++ [b]) = .ok bindings := by
  rw [bindingsOf] at read
  split at read
  · cases read
  · next b found =>
    split at read
    · cases read
    · next fresh =>
      refine ⟨b,found,?_,read⟩
      simpa using fresh

theorem bindingsOf_names (read : bindingsOf kind entries before = .ok bindings)
    (distinct : (before.map Binding.name).Nodup) : (bindings.map Binding.name).Nodup := by
  induction entries generalizing before with
  | nil => cases read; exact distinct
  | cons entry entries ih =>
    obtain ⟨b,_,fresh,rest⟩ := bindingsOf_cons read
    apply ih rest
    rw [map_append,map_singleton,nodup_append]
    refine ⟨distinct,nodup_singleton _,?_⟩
    intro x member y last
    rw [mem_singleton.mp last]
    exact fun same => fresh (same ▸ member)

theorem bindingsOf_cells (read : bindingsOf kind entries before = .ok bindings) :
    (bindings.flatMap fun b => b.init.cells).Sublist
      ((before.flatMap fun b => b.init.cells) ++ entries.flatMap Value.cells) := by
  induction entries generalizing before with
  | nil => cases read; simp
  | cons entry entries ih =>
    obtain ⟨b,found,_,rest⟩ := bindingsOf_cons read
    have cells := Value.items_cells (binding_items found)
    refine (ih rest).trans ?_
    simp only [flatMap_append,flatMap_cons,flatMap_nil,append_nil,append_assoc]
    exact (List.Sublist.refl _).append (.append (by simpa [Value.cells] using cells) (.refl _))

theorem ofParts_read {parts : List Value} (read : ofParts kind parts = .ok form) :
    form.kind = kind ∧ ∃ list entries, parts = [list,form.body] ∧ list.items? = some entries ∧
      bindingsOf kind entries [] = .ok form.bindings := by
  unfold ofParts at read
  split at read
  · split at read
    · cases read
    · next entries listed =>
      split at read
      · cases read
      · next bindings found =>
        cases read
        exact ⟨rfl,_,entries,rfl,listed,found⟩
  · cases read

theorem ofParts_ok {parts : List Value} (read : ofParts kind parts = .ok form) :
    form.names.Nodup ∧ form.cells.Sublist (parts.flatMap Value.cells) := by
  obtain ⟨_,list,entries,rfl,listed,found⟩ := ofParts_read read
  refine ⟨bindingsOf_names found nodup_nil,?_⟩
  simp only [cells,statements,flatMap_append,flatMap_cons,flatMap_nil,append_nil,flatMap_map]
  apply List.Sublist.append _ (.refl _)
  simpa using (bindingsOf_cells found).trans (by simpa using Value.items_cells listed)

theorem length_names (form : LetForm) : form.names.length = form.bindings.length :=
  length_map _

theorem take_names (all : form.bindings.length ≤ i) : form.names.take i = form.names :=
  take_of_length_le (form.length_names ▸ all)

theorem statement_body (form : LetForm) : form.statement form.bodyIndex = form.body := by
  simp [statement,bodyIndex]

theorem visibleIn_plain (plain : form.kind = .plain) (index : Nat) :
    form.visibleIn index = form.names.take index := by
  rw [visibleIn,plain]

theorem mem_names_of_visible {index : Nat} {x : String} (visible : x ∈ form.visibleIn index) : x ∈ form.names := by
  unfold visibleIn at visible
  split at visible
  · exact visible
  · exact mem_of_mem_take visible

theorem binding_of_name {x : String} (member : x ∈ form.names.take i) :
    ∃ j < i, ∃ b, form.bindings[j]? = some b ∧ b.name = x := by
  obtain ⟨j,below,same⟩ := mem_take_iff_getElem.mp member
  have inside : j < form.bindings.length := by
    rw [length_names] at below
    omega
  refine ⟨j,by omega,form.bindings[j],getElem?_eq_getElem inside,?_⟩
  rw [← same]
  simp [names]

theorem binding_next (left : form.bindings.drop i = b :: bindings) :
    form.bindings[i]? = some b ∧ form.bindings.drop (i + 1) = bindings := by
  rw [← head?_drop,← tail_drop,left]
  exact ⟨rfl,rfl⟩

section Names

variable {form : LetForm} {i : Nat} {b : Binding} (found : form.bindings[i]? = some b)

include found

theorem name_at : form.names[i]? = some b.name := by
  rw [names,getElem?_map,found]
  rfl

theorem name_mem_take {n : Nat} (before : i < n) : b.name ∈ form.names.take n := by
  apply mem_of_getElem?
  rw [getElem?_take_of_lt before]
  exact name_at found

theorem mem_take_succ {x : String} : x ∈ form.names.take (i + 1) ↔ x ∈ form.names.take i ∨ x = b.name := by
  rw [take_add_one,name_at found]
  simp

theorem name_new (distinct : form.names.Nodup) : b.name ∉ form.names.take i := by
  intro member
  obtain ⟨j,below,same⟩ := mem_take_iff_getElem.mp member
  obtain ⟨inside,there⟩ := List.getElem?_eq_some_iff.mp (name_at found)
  have := (List.Nodup.getElem_inj_iff distinct).mp (same.trans there.symm)
  omega

end Names

theorem statement_at (inside : i ≤ form.bodyIndex) : form.statements[i]? = some (form.statement i) := by
  unfold statement statements
  rcases Nat.lt_or_eq_of_le inside with before | rfl
  · have bound : i < form.bindings.length := before
    rw [getElem?_append_left (by simpa using bound)]
    simp [bound]
  · simp [bodyIndex]

section Cells

variable {form : LetForm} {i j : Nat} {b c : Binding}

theorem init_at (found : form.bindings[i]? = some b) : form.statements[i]? = some b.init := by
  rw [statements,getElem?_append_left]
  · rw [getElem?_map,found]
    rfl
  · simpa using lt_of_getElem? found

theorem init_cells (found : form.bindings[i]? = some b) : b.init.cells ⊆ form.cells := by
  intro cell member
  exact mem_flatMap.mpr ⟨b.init,mem_of_getElem? (init_at found),member⟩

theorem init_nodup (distinct : form.cells.Nodup) (found : form.bindings[i]? = some b) : b.init.cells.Nodup :=
  (nodup_flatMap.mp distinct).1 b.init (mem_of_getElem? (init_at found))

theorem init_disjoint (distinct : form.cells.Nodup) (first : form.bindings[i]? = some b)
    (second : form.bindings[j]? = some c) (before : i < j) :
    List.Disjoint b.init.cells c.init.cells := by
  obtain ⟨boundI,atI⟩ := List.getElem?_eq_some_iff.mp (init_at first)
  obtain ⟨boundJ,atJ⟩ := List.getElem?_eq_some_iff.mp (init_at second)
  have apart := pairwise_iff_getElem.mp (nodup_flatMap.mp distinct).2 i j boundI boundJ before
  rw [atI,atJ] at apart
  exact apart

end Cells

end StagedLisp.LetForm
