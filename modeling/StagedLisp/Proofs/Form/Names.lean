import Mathlib.Data.List.Basic
import StagedLisp.Proofs.Form.Plain

/-! The names that occur free in an expression are those of its parts, apart from the ones bound
around them. -/
namespace StagedLisp

open View

/-- The parts of a form in which names occur, each with the names bound around it. -/
def View.parts : View → List (List String × Value)
  | inert _ => []
  | lambda params body => [(params,body)]
  | binding inner => inner.statements.zipIdx.map fun (part,index) => (inner.visibleIn index,part)
  | setMeta handler => [([],handler)]
  | scan operand => [([],operand)]
  | conditional test branches => (test :: branches).map fun part => ([],part)
  | assign target value => [([],target),([],value)]
  | wrapper _ operand => [([],operand)]
  | misfit keyword parts =>
    if (keyword == "let" || keyword == "letrec") && parts.length == 2 then []
    else parts.map fun part => ([],part)
  | call head args => (head :: args).map fun part => ([],part)

variable {names bound : List String} {e : Value} {view : View} {x y : String} {budget : Nat}

theorem View.parts_items {head : Value} {rest : List Value} {part : Value}
    (member : (names,part) ∈ (ofItems (head :: rest)).parts)
    (noLet : ∀ inner, ofItems (head :: rest) ≠ .binding inner)
    (noLambda : ∀ params body, ofItems (head :: rest) ≠ .lambda params body) :
    names = [] ∧ part ∈ head :: rest := by
  cases head with
  | sym keyword =>
    change (names,part) ∈ (ofKeyword keyword rest).parts at member
    change ∀ inner, ofKeyword keyword rest ≠ .binding inner at noLet
    change ∀ params body, ofKeyword keyword rest ≠ .lambda params body at noLambda
    unfold ofKeyword at member noLet noLambda
    split at member
    all_goals (try split at member)
    all_goals simp_all [parts]
    all_goals tauto
  | _ =>
    simp only [ofItems,parts,List.mem_map,Prod.mk.injEq] at member
    obtain ⟨a,listed,rfl,rfl⟩ := member
    exact ⟨rfl,listed⟩

theorem freeNames_form (shown : of? e = some view) (budget : Nat) (bound found : List String) :
    freeNames (budget + 1) bound found e =
      view.parts.foldl (fun found part => freeNames budget (bound ++ part.1) found part.2) found := by
  cases e with
  | pair cell head tail =>
    rw [freeNames,shown]
    · cases view with
      | misfit keyword parts =>
        simp only [View.parts]
        split <;> simp [List.foldl_map]
      | _ => simp [View.parts,List.foldl_map]
    · intro x same
      cases same
  | _ => cases shown

theorem mem_addName : y ∈ addName names x ↔ y ∈ names ∨ y = x := by
  unfold addName
  split
  · next known =>
    have listed : x ∈ names := by simpa using known
    exact ⟨.inl,fun either => either.elim id fun same => same ▸ listed⟩
  · simp

theorem mem_foldl_names {α : Type} {add : List String → α → List String}
    (adds : ∀ found part, y ∈ add found part ↔ y ∈ found ∨ y ∈ add [] part) (parts : List α)
    (found : List String) :
    y ∈ parts.foldl add found ↔ y ∈ found ∨ ∃ part ∈ parts, y ∈ add [] part := by
  induction parts generalizing found with
  | nil => simp
  | cons part parts ih =>
    rw [List.foldl_cons,ih,adds]
    simp [or_assoc]

theorem mem_freeNames {found : List String} :
    y ∈ freeNames budget bound found e ↔ y ∈ found ∨ y ∈ freeNames budget bound [] e := by
  induction budget generalizing bound found e with
  | zero => simp [freeNames]
  | succ budget ih =>
    cases shown : of? e with
    | some view =>
      have adds (found : List String) (part : List String × Value) :
          y ∈ freeNames budget (bound ++ part.1) found part.2 ↔
            y ∈ found ∨ y ∈ freeNames budget (bound ++ part.1) [] part.2 := ih
      rw [freeNames_form shown,freeNames_form shown,mem_foldl_names adds,mem_foldl_names adds]
      simp
    | none =>
      cases e with
      | sym x =>
        rw [freeNames,freeNames]
        split
        · simp
        · rw [mem_addName,mem_addName]
          simp
      | _ =>
        rw [freeNames,freeNames,shown]
        · simp
        all_goals (intro x same; cases same)

theorem mem_freeNames_form (shown : of? e = some view) : y ∈ freeNames (budget + 1) bound [] e ↔
      ∃ part ∈ view.parts, y ∈ freeNames budget (bound ++ part.1) [] part.2 := by
  have adds (found : List String) (part : List String × Value) :
      y ∈ freeNames budget (bound ++ part.1) found part.2 ↔
        y ∈ found ∨ y ∈ freeNames budget (bound ++ part.1) [] part.2 := mem_freeNames
  rw [freeNames_form shown,mem_foldl_names adds]
  simp

theorem mem_freeNames_symbol : y ∈ freeNames (budget + 1) bound [] (.sym x) ↔ y = x ∧ x ∉ bound := by
  rw [freeNames]
  split
  · next inside => simp_all
  · next outside => simp_all [mem_addName]

theorem mem_freeNames_succ : y ∈ freeNames (budget + 1) bound [] e ↔
    (e = .sym y ∧ y ∉ bound) ∨ ∃ view, of? e = some view ∧
      ∃ part ∈ view.parts, y ∈ freeNames budget (bound ++ part.1) [] part.2 := by
  cases shown : of? e with
  | some view =>
    have form : e ≠ .sym y := by
      rintro rfl
      cases shown
    simp [mem_freeNames_form shown,form]
  | none =>
    cases e with
    | sym x => simp +contextual [mem_freeNames_symbol,and_comm,eq_comm]
    | _ =>
      rw [freeNames,shown]
      · simp
      · intro x same
        cases same

theorem freeNames_mono {budget' : Nat} (deeper : budget ≤ budget') :
    freeNames budget bound [] e ⊆ freeNames budget' bound [] e := by
  induction budget generalizing budget' bound e with
  | zero => simp [freeNames]
  | succ budget ih =>
    obtain ⟨budget',rfl⟩ : ∃ k, budget' = k + 1 := ⟨budget' - 1,by omega⟩
    intro y member
    refine mem_freeNames_succ.mpr ((mem_freeNames_succ.mp member).imp_right ?_)
    rintro ⟨view,shown,part,listed,inside⟩
    exact ⟨view,shown,part,listed,ih (by omega) inside⟩

/-- The expression has a free occurrence of the name, at whatever depth. -/
def Mentions (e : Value) (y : String) : Prop := ∃ budget, y ∈ freeNames budget [] [] e

theorem Mentions.part {part : Value} (shown : of? e = some view)
    (listed : ([],part) ∈ view.parts) (mentions : Mentions part y) : Mentions e y := by
  obtain ⟨budget,member⟩ := mentions
  exact ⟨budget + 1,(mem_freeNames_form shown).mpr ⟨([],part),listed,member⟩⟩

theorem Plain.mentions_exposed (plain : Plain names e) {projected : Bool}
    (exposed : exposed? e = some (x,projected)) : Mentions e x := by
  induction plain generalizing projected with
  | int | nil => cases exposed
  | name =>
    cases exposed
    exact ⟨1,mem_freeNames_symbol.mpr ⟨rfl,List.not_mem_nil⟩⟩
  | quote items _ | choice items => exact absurd (exposed?_form items exposed).1 (by decide)
  | @call _ args op items _ ih =>
    obtain ⟨_,operand,member,_,found⟩ := exposed?_form items exposed
    have view := of?_items items
    rw [ofItems_call] at view
    refine (ih operand member found).part view ?_
    exact List.mem_map_of_mem (.tail _ member)

end StagedLisp
