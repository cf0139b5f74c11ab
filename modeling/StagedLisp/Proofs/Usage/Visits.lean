import StagedLisp.Proofs.Form.Symbols

/-! The two walks through an expression that make up its usages. Each step of a walk goes through the parts
of one form, and what it does there depends on where the part stands. -/
namespace StagedLisp

open List View Value

/-- A part of a form that is visited to count uses. -/
structure Visit where
  /-- The names that the form binds around the part. -/
  names : List String := []
  part : Value
  /-- The part is the body of a procedure. -/
  procedure : Bool := false

/-- A part of a form that is visited to spread an escape. -/
structure Position where
  names : List String := []
  part : Value
  /-- How far the value of the part escapes. -/
  escape : Escape
  /-- The value is put directly into a new pair. -/
  stored : Bool := false

namespace Value

/-- The parts of an expression in which uses are counted, in order. -/
def visits (e : Value) : List Visit :=
  match e.formItems? with
  | none => []
  | some items =>
    let each (parts : List Value) : List Visit := parts.map fun part => { part }
    match View.ofItems items with
    | .inert _ => []
    | .lambda params body => [{ names := params, part := body, procedure := true }]
    | .binding inner => inner.statements.zipIdx.map fun (part,index) =>
      { names := inner.visibleIn index, part }
    | .setMeta handler => each [handler]
    | .scan operand => if items.length = 3 then each [operand] else each items
    | .misfit keyword parts =>
      if keyword == "let" || keyword == "letrec" then each parts else each items
    | _ => each items

/-- The operator of a call stays inside; its operands are handed over. -/
def callPositions (outer : Escape) (head : Value) (args : List Value) : List Position :=
  { part := head, escape := .inside } :: args.map fun part =>
    { part
      escape := outer.join .argument
      stored := head.symbol? == some "cons" || head.symbol? == some "list" }

/-- The parts of an expression with what becomes of their values, if its own escapes by `outer`. -/
def positions (outer : Escape) (e : Value) : List Position :=
  let each (escape : Escape) (parts : List Value) : List Position :=
    parts.map fun part => { part, escape }
  match of? e with
  | none => []
  | some view =>
    match view with
    | .inert _ => []
    | .lambda params body => [{ names := params, part := body, escape := .everywhere }]
    | .binding inner => inner.statements.zipIdx.map fun (part,index) =>
      { names := inner.visibleIn index, part, escape := Tally.statementEscape inner outer index }
    | .setMeta handler => each .everywhere [handler]
    | .scan operand => each (outer.join .argument) [operand]
    | .conditional test branches => each .inside [test] ++ each outer branches
    | .assign target value => each .everywhere [target,value]
    | .wrapper _ operand => each outer [operand]
    | .misfit keyword parts =>
      if keyword == "let" || keyword == "letrec" then each .everywhere parts
      else callPositions outer (.sym keyword) parts
    | .call head args => callPositions outer head args

theorem eq_sym {e : Value} {name : String} (named : e.symbol? = some name) : e = .sym name := by
  cases e with
  | sym => cases named; rfl
  | _ => cases named

end Value

theorem visit_of_part {e part : Value} {view : View} {names : List String}
    (shown : of? e = some view) (listed : (names,part) ∈ view.parts) :
    ∃ v ∈ e.visits, v.names = names ∧ v.part = part := by
  obtain ⟨items,found,rfl⟩ := Option.map_eq_some_iff.mp shown
  obtain ⟨_,head,rest,rfl⟩ := formItems_head found
  have each {parts : List Value} (member : part ∈ parts) (opens : names = []) :
      ∃ v ∈ parts.map fun part => ({ part } : Visit), v.names = names ∧ v.part = part :=
    ⟨{ part },mem_map_of_mem member,opens.symm,rfl⟩
  have among := parts_items listed
  unfold visits
  simp only [found]
  cases view : View.ofItems (head :: rest) with
  | inert => simp [view,View.parts] at listed
  | lambda params body =>
    rw [view,View.parts,mem_singleton] at listed
    cases listed
    exact ⟨_,mem_singleton_self _,rfl,rfl⟩
  | binding inner =>
    rw [view] at listed
    obtain ⟨entry,member,same⟩ := mem_map.mp listed
    cases same
    exact ⟨_,mem_map_of_mem member,rfl,rfl⟩
  | setMeta handler =>
    rw [view,View.parts,mem_singleton] at listed
    cases listed
    exact each (mem_singleton_self _) rfl
  | scan operand =>
    obtain ⟨opens,member⟩ := among (by simp [view]) (by simp [view])
    rw [view,View.parts,mem_singleton] at listed
    cases listed
    dsimp only
    split
    · exact each (mem_singleton_self _) rfl
    · exact each member rfl
  | misfit keyword parts =>
    obtain ⟨opens,member⟩ := among (by simp [view]) (by simp [view])
    dsimp only
    split
    · rw [view,View.parts] at listed
      split at listed
      · cases listed
      · obtain ⟨a,there,same⟩ := mem_map.mp listed
        cases same
        exact each there rfl
    · exact each member opens
  | conditional | assign | wrapper | call =>
    obtain ⟨opens,member⟩ := among (by simp [view]) (by simp [view])
    exact each member opens

theorem visit_of_position {e : Value} {outer : Escape} {p : Position} (listed : p ∈ e.positions outer) :
    ∃ v ∈ e.visits, v.names = p.names ∧ v.part = p.part := by
  unfold positions at listed
  cases shown : of? e with
  | none => simp [shown] at listed
  | some view =>
    simp only [shown] at listed
    have call {head : Value} {args : List Value} (listed : p ∈ callPositions outer head args) :
        p.names = [] ∧ p.part ∈ head :: args := by
      rcases mem_cons.mp listed with rfl | later
      · exact ⟨rfl,mem_cons_self⟩
      · obtain ⟨arg,member,rfl⟩ := mem_map.mp later
        exact ⟨rfl,mem_cons_of_mem _ member⟩
    cases view with
    | misfit keyword parts =>
      -- Parts that do not fit their keyword are visited, but are no parts of the form.
      obtain ⟨items,found,misfit⟩ := Option.map_eq_some_iff.mp shown
      obtain rfl := ofItems_shows misfit
      unfold visits
      simp only [found,misfit] at listed ⊢
      split at listed
      · next letForm =>
        rw [if_pos letForm]
        obtain ⟨part,member,rfl⟩ := mem_map.mp listed
        exact ⟨_,mem_map_of_mem member,rfl,rfl⟩
      · next other =>
        rw [if_neg other]
        obtain ⟨opens,member⟩ := call listed
        exact ⟨_,mem_map_of_mem member,opens.symm,rfl⟩
    | inert => cases listed
    | call head args =>
      obtain ⟨opens,member⟩ := call listed
      exact visit_of_part shown (opens ▸ mem_map_of_mem member)
    | binding inner =>
      obtain ⟨entry,member,rfl⟩ := mem_map.mp listed
      exact visit_of_part shown (mem_map_of_mem member)
    | lambda | setMeta | scan | conditional | assign | wrapper =>
      refine visit_of_part shown ?_
      simp only [parts] at listed ⊢
      aesop

namespace Tally

variable {t : Tally} {hidden : List String}

/-- A variable that is put into a new pair is noted as stored. -/
def store (hidden : List String) (t : Tally) (p : Position) : Tally :=
  match p.part with
  | .sym name => if p.stored then t.update hidden name fun u => { u with stored := true } else t
  | _ => t

theorem count_form (budget depth : Nat) (inBody : Bool) {e : Value} (form : e.symbol? = none) :
    count (budget + 1) depth inBody hidden t e = e.visits.foldl
      (fun t v => count budget (depth + 1) (inBody || v.procedure) (hidden ++ v.names) t v.part) t := by
  have each (parts : List Value) : (parts.map fun part => ({ part } : Visit)).foldl (fun t v =>
        count budget (depth + 1) (inBody || v.procedure) (hidden ++ v.names) t v.part) t =
      parts.foldl (count budget (depth + 1) inBody hidden) t := by
    simp [foldl_map]
  cases e with
  | sym => cases form
  | pair cell head tail =>
    rw [count,visits]
    · cases (pair cell head tail).formItems? with
      | none => rfl
      | some items =>
        dsimp only
        cases View.ofItems items with
        | inert => rfl
        | lambda params body => simp
        | binding inner => simp [foldl_map]
        | setMeta handler => exact (each [handler]).symm
        | scan operand | misfit keyword parts =>
          dsimp only
          split <;> exact (each _).symm
        | conditional | assign | wrapper | call => exact (each items).symm
    · intro x same
      cases same
  | _ => rfl

theorem store_other (t : Tally) {p : Position} (other : p.stored = false) : store hidden t p = t := by
  unfold store
  split
  · rw [other]
    rfl
  · rfl

theorem spread_form (budget depth : Nat) (outer : Escape) {e : Value} (form : e.symbol? = none) :
    spread (budget + 1) depth hidden outer t e = (e.positions outer).foldl
      (fun t p => spread budget (depth + 1) (hidden ++ p.names) p.escape
        (store (hidden ++ p.names) t p) p.part) t := by
  have each (escape : Escape) (parts : List Value) (t : Tally) :
      (parts.map fun part => ({ part, escape } : Position)).foldl (fun t p =>
        spread budget (depth + 1) (hidden ++ p.names) p.escape (store (hidden ++ p.names) t p) p.part) t =
      parts.foldl (fun t part => spread budget (depth + 1) hidden escape t part) t := by
    simp [foldl_map,store_other]
  have call (head : Value) (args : List Value) : (callPositions outer head args).foldl (fun t p =>
        spread budget (depth + 1) (hidden ++ p.names) p.escape (store (hidden ++ p.names) t p) p.part) t =
      args.foldl (fun t part => spread budget (depth + 1) hidden (outer.join .argument)
        (store hidden t { part, escape := outer.join .argument, stored :=
          head.symbol? == some "cons" || head.symbol? == some "list" }) part)
        (spread budget (depth + 1) hidden .inside t head) := by
    rw [callPositions,foldl_cons,foldl_map]
    simp [store_other]
  cases e with
  | sym => cases form
  | pair cell head tail =>
    rw [spread,positions]
    · cases of? (.pair cell head tail) with
      | none => rfl
      | some view =>
        dsimp only
        cases view with
        | inert => rfl
        | lambda params body => simp [store_other]
        | binding inner => simp [foldl_map,store_other]
        | setMeta handler => exact (each _ [handler] t).symm
        | scan operand | wrapper keyword operand => exact (each _ [operand] t).symm
        | conditional test branches =>
          rw [foldl_append,each,each]
          rfl
        | assign target value => exact (each _ [target,value] t).symm
        | misfit keyword parts =>
          dsimp only
          split
          · exact (each _ parts t).symm
          · exact (call (.sym keyword) parts).symm
        | call head args => exact (call head args).symm
    · intro x same
      cases same
  | _ => rfl

end Tally

end StagedLisp
