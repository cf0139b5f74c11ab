import Mathlib.Data.List.Basic
import StagedLisp.Flow.Graph

/-! What the control-flow graph of a form looks like. Its nodes are, apart from their edges, the ones
`formNodes` lists, statement by statement. Its edges lead to later nodes, and only the exit has none. -/
namespace StagedLisp.Flow

def Node.bare (node : Node) : Node := { node with succs := [], preds := [] }

@[simp] theorem bare_statement (node : Node) : node.bare.statement = node.statement := rfl
@[simp] theorem bare_site (node : Node) : node.bare.site = node.site := rfl

def contents (g : Graph) : List Node := g.toList.map Node.bare

theorem contents_getElem? (g : Graph) (n : Nat) : (contents g)[n]? = g[n]?.map Node.bare := by
  simp [contents]

@[simp] theorem contents_length (g : Graph) : (contents g).length = g.size := by simp [contents]

@[simp] theorem contents_push (g : Graph) (node : Node) :
    contents (g.push node) = contents g ++ [node.bare] := by simp [contents]

def linked (g : Graph) (source target : Nat) : Graph := ((link source target).run g).2

variable {g : Graph} {source target n index : Nat} {node : Node} {pending : List Nat}
  {form : LetForm} {region : Region}

theorem linked_of_mem (known : target ∈ successors g source) : linked g source target = g := by
  simp [linked,link,modify,modifyGet,MonadStateOf.modifyGet,StateT.modifyGet,StateT.run,pure,known]

theorem linked_of_not_mem (absent : target ∉ successors g source) : linked g source target =
      (g.modify source fun node => { node with succs := node.succs ++ [target] }).modify target
        fun node => { node with preds := node.preds ++ [source] } := by
  simp [linked,link,modify,modifyGet,MonadStateOf.modifyGet,StateT.modifyGet,StateT.run,pure,absent]

@[simp] theorem linked_size (g : Graph) (source target : Nat) : (linked g source target).size = g.size := by
  by_cases known : target ∈ successors g source
  · rw [linked_of_mem known]
  · simp [linked_of_not_mem known]

theorem contents_modify (g : Graph) (n : Nat) (f : Node → Node)
    (same : ∀ node, (f node).bare = node.bare) : contents (g.modify n f) = contents g := by
  apply List.ext_getElem?
  intro m
  rw [contents_getElem?,contents_getElem?,Array.getElem?_modify]
  split
  · cases g[m]? with
    | none => rfl
    | some node => simp [same]
  · rfl

@[simp] theorem contents_linked (g : Graph) (source target : Nat) :
    contents (linked g source target) = contents g := by
  by_cases known : target ∈ successors g source
  · rw [linked_of_mem known]
  · rw [linked_of_not_mem known,contents_modify,contents_modify]
    all_goals intro node; rfl

theorem mem_successors {s : Nat} : s ∈ successors g n ↔ ∃ node, g[n]? = some node ∧ s ∈ node.succs := by
  unfold successors
  cases g[n]? <;> simp

theorem successors_of_getElem? (found : g[n]? = some node) :
    successors g n = node.succs := by simp [successors,found]

theorem successors_push (g : Graph) (node : Node) (n : Nat) :
    successors (g.push node) n = if n = g.size then node.succs else successors g n := by
  unfold successors
  rw [Array.getElem?_push]
  by_cases last : n = g.size
  · simp [last]
  · simp [last]

theorem successors_linked (g : Graph) (source target n : Nat) (bound : source < g.size) :
    successors (linked g source target) n =
      if n = source ∧ target ∉ successors g source then successors g source ++ [target]
      else successors g n := by
  by_cases known : target ∈ successors g source
  · simp [linked_of_mem known,known]
  · rw [linked_of_not_mem known]
    unfold successors at *
    rw [Array.getElem?_modify,Array.getElem?_modify]
    by_cases same : source = n
    · subst same
      by_cases self : target = source <;> simp_all
    · have other : ¬ n = source := fun equal => same equal.symm
      by_cases hit : target = n
      · subst hit
        cases g[target]? <;> simp [same,other]
      · simp [same,other,hit]

/-- Every edge leads forward, and the nodes without one are pending. -/
structure Frontier (g : Graph) (pending : List Nat) : Prop where
  forward : ∀ n s, s ∈ successors g n → n < s ∧ s < g.size
  inside : ∀ n ∈ pending, n < g.size
  ends : ∀ n, n < g.size → successors g n = [] → n ∈ pending

theorem Frontier.regroup {other : List Nat} (f : Frontier g pending)
    (same : ∀ n, n ∈ pending ↔ n ∈ other) : Frontier g other :=
  ⟨f.forward,fun n member => f.inside n ((same n).mpr member),
    fun n bound empty => (same n).mp (f.ends n bound empty)⟩

theorem Frontier.push (f : Frontier g pending) (node : Node) (edgeless : node.succs = []) :
    Frontier (g.push node) (g.size :: pending) := by
  constructor
  · intro n s member
    rw [successors_push] at member
    split at member
    · simp [edgeless] at member
    · have := f.forward n s member
      simp only [Array.size_push]
      omega
  · intro n member
    rw [Array.size_push]
    rcases List.mem_cons.mp member with rfl | member
    · omega
    · have := f.inside n member
      omega
  · intro n bound empty
    rw [Array.size_push] at bound
    rw [successors_push] at empty
    by_cases last : n = g.size
    · simp [last]
    · rw [if_neg last] at empty
      exact List.mem_cons_of_mem _ (f.ends n (by omega) empty)

theorem Frontier.link (f : Frontier g pending) (later : source < target) (bound : target < g.size) :
    Frontier (linked g source target) pending := by
  have edges := successors_linked g source target
  constructor
  · intro n s member
    rw [linked_size]
    rw [edges n (by omega)] at member
    split at member
    · next found =>
      rcases List.mem_append.mp member with old | new
      · rw [found.1]
        exact f.forward source s old
      · rw [List.mem_singleton.mp new,found.1]
        exact ⟨later,bound⟩
    · exact f.forward n s member
  · intro n member
    rw [linked_size]
    exact f.inside n member
  · intro n inside empty
    rw [linked_size] at inside
    rw [edges n (by omega)] at empty
    split at empty
    · simp at empty
    · exact f.ends n inside empty

theorem Frontier.linkFirst (f : Frontier g (source :: pending)) (later : source < target)
    (bound : target < g.size) : Frontier (linked g source target) pending := by
  have next := f.link later bound
  refine ⟨next.forward,fun n member => next.inside n (.tail _ member),?_⟩
  intro n inside empty
  rcases List.mem_cons.mp (next.ends n inside empty) with rfl | member
  · rw [successors_linked g n target n (by omega)] at empty
    split at empty
    · simp at empty
    · next known => simp_all
  · exact member

theorem run_linkAll (sources : List Nat) (target : Nat) (g : Graph) :
    (linkAll sources target).run g = ((),sources.foldl (linked · · target) g) := by
  induction sources generalizing g with
  | nil => rfl
  | cons source sources ih => exact ih (linked g source target)

@[simp] theorem foldl_linked_size (sources : List Nat) (target : Nat) (g : Graph) :
    (sources.foldl (linked · · target) g).size = g.size := by
  induction sources generalizing g with
  | nil => rfl
  | cons source sources ih => rw [List.foldl_cons,ih,linked_size]

@[simp] theorem contents_foldl_linked (sources : List Nat) (target : Nat) (g : Graph) :
    contents (sources.foldl (linked · · target) g) = contents g := by
  induction sources generalizing g with
  | nil => rfl
  | cons source sources ih => rw [List.foldl_cons,ih,contents_linked]

theorem Frontier.linkAll {sources : List Nat} (f : Frontier g (sources ++ pending))
    (later : ∀ n ∈ sources, n < target) (bound : target < g.size) :
    Frontier (sources.foldl (linked · · target) g) pending := by
  induction sources generalizing g with
  | nil => exact f
  | cons source sources ih =>
    apply ih
    · exact f.linkFirst (later source (by simp)) bound
    · exact fun n member => later n (.tail _ member)
    · simpa using bound

theorem Frontier.join (f : Frontier g pending) (node : Node) (edgeless : node.succs = []) :
    Frontier (pending.foldl (linked · · g.size) (g.push node)) [g.size] := by
  apply Frontier.linkAll
  · apply (f.push node edgeless).regroup
    intro n
    simp only [List.mem_append,List.mem_cons]
    tauto
  · exact f.inside
  · simp

def regionNodes (visible : List String) (statement : Nat) : (budget : Nat) → Value → List Node
  | 0, expr =>
    [{ kind := .expr, statement, uses := (mentionedNames expr).filter visible.contains }]
  | budget + 1, expr =>
    let used (expr : Value) : List String := (freeVariables expr).filter visible.contains
    match conditional? expr with
    | none => [{ kind := .expr, statement, uses := used expr }]
    | some (test,onTrue,onFalse) =>
      { kind := .branch, statement, uses := used test, site := expr.cell? } ::
        (regionNodes visible statement budget onTrue ++ match onFalse with
          | none => []
          | some onFalse => regionNodes visible statement budget onFalse)

def statementNodes (form : LetForm) (budget index : Nat) : List Node :=
  regionNodes (form.visibleIn index) index budget (form.statement index) ++ match form.bindings[index]? with
    | none => []
    | some b => [{ kind := .define, statement := index, defs := [b.name] }]

def formNodes (form : LetForm) (budget : Nat) : List Node :=
  (List.range (form.bodyIndex + 1)).flatMap (statementNodes form budget) ++
    [{ kind := .exit, statement := form.bodyIndex }]

section Build

variable {visible : List String} {statement budget : Nat} {expr test onTrue onFalse : Value}

theorem run_build_zero (g : Graph) : (build visible statement 0 expr).run g = (⟨g.size,[g.size]⟩,g.push
        { kind := .expr, statement, uses := (mentionedNames expr).filter visible.contains }) := rfl

theorem run_build_plain (plain : conditional? expr = none) (g : Graph) :
    (build visible statement (budget + 1) expr).run g = (⟨g.size,[g.size]⟩,g.push
        { kind := .expr, statement, uses := (freeVariables expr).filter visible.contains }) := by
  rw [build,plain]
  rfl

theorem run_build_one (one : conditional? expr = some (test,onTrue,none)) (g : Graph) :
    (build visible statement (budget + 1) expr).run g =
      let first := (build visible statement budget onTrue).run (g.push
        { kind := .branch, statement, uses := (freeVariables test).filter visible.contains
          site := expr.cell? })
      (⟨g.size,first.1.exits ++ [g.size]⟩,linked first.2 g.size first.1.entry) := by
  rw [build,one]
  rfl

theorem run_build_two (two : conditional? expr = some (test,onTrue,some onFalse)) (g : Graph) :
    (build visible statement (budget + 1) expr).run g =
      let first := (build visible statement budget onTrue).run (g.push
        { kind := .branch, statement, uses := (freeVariables test).filter visible.contains
          site := expr.cell? })
      let second := (build visible statement budget onFalse).run
        (linked first.2 g.size first.1.entry)
      (⟨g.size,first.1.exits ++ second.1.exits⟩,linked second.2 g.size second.1.entry) := by
  rw [build,two]
  rfl

theorem build_contents (visible : List String) (statement budget : Nat) (expr : Value) (g : Graph) :
    contents ((build visible statement budget expr).run g).2 =
      contents g ++ regionNodes visible statement budget expr := by
  induction budget generalizing expr g with
  | zero => simp [run_build_zero,regionNodes,Node.bare]
  | succ budget ih =>
    rw [regionNodes]
    cases shown : conditional? expr with
    | none => simp [run_build_plain shown,Node.bare]
    | some parts =>
      obtain ⟨test,onTrue,onFalse⟩ := parts
      cases onFalse with
      | none => simp [run_build_one shown,ih,Node.bare]
      | some onFalse => simp [run_build_two shown,ih,Node.bare]

end Build

structure Spans (g g' : Graph) (region : Region) : Prop where
  entry : region.entry = g.size
  grows : g.size < g'.size
  exits : ∀ n ∈ region.exits, g.size ≤ n
  frontier : ∀ pending, Frontier g pending → Frontier g' (region.exits ++ pending)

theorem Spans.leaf (g : Graph) (node : Node) (edgeless : node.succs = []) :
    Spans g (g.push node) ⟨g.size,[g.size]⟩ :=
  ⟨rfl,by simp,by simp,fun _ f => f.push node edgeless⟩

theorem Spans.first {g' : Graph} (edgeless : node.succs = [])
    (inner : Spans (g.push node) g' region) (f : Frontier g pending) :
    Frontier (linked g' g.size region.entry) (region.exits ++ pending) := by
  have grows := inner.grows
  have entry := inner.entry
  rw [Array.size_push] at grows entry
  have moved : Frontier g' (g.size :: (region.exits ++ pending)) := by
    apply (inner.frontier _ (f.push node edgeless)).regroup
    intro n
    simp only [List.mem_append,List.mem_cons]
    tauto
  exact moved.linkFirst (by omega) (by omega)

theorem Spans.one {g' : Graph} (edgeless : node.succs = []) (inner : Spans (g.push node) g' region) :
    Spans g (linked g' g.size region.entry) ⟨g.size,region.exits ++ [g.size]⟩ := by
  have grows := inner.grows
  rw [Array.size_push] at grows
  refine ⟨rfl,by rw [linked_size]; omega,?_,?_⟩
  · intro n member
    rcases List.mem_append.mp member with member | last
    · have := inner.exits n member
      rw [Array.size_push] at this
      omega
    · exact Nat.le_of_eq (List.mem_singleton.mp last).symm
  · -- The condition is an exit too, so it stays pending in spite of its edge.
    intro pending f
    have next := inner.first edgeless f
    refine ⟨next.forward,?_,?_⟩
    · intro n member
      simp only [List.append_assoc,List.mem_append,List.mem_singleton] at member
      rcases member with member | rfl | member
      · exact next.inside n (List.mem_append_left _ member)
      · rw [linked_size]; omega
      · exact next.inside n (List.mem_append_right _ member)
    · intro n bound empty
      have := next.ends n bound empty
      simp only [List.mem_append] at this ⊢
      tauto

theorem Spans.two {g₁ g₂ : Graph} {first second : Region} (edgeless : node.succs = [])
    (onTrue : Spans (g.push node) g₁ first)
    (onFalse : Spans (linked g₁ g.size first.entry) g₂ second) :
    Spans g (linked g₂ g.size second.entry) ⟨g.size,first.exits ++ second.exits⟩ := by
  have growsTrue := onTrue.grows
  have growsFalse := onFalse.grows
  have entryFalse := onFalse.entry
  rw [Array.size_push] at growsTrue
  rw [linked_size] at growsFalse entryFalse
  refine ⟨rfl,by rw [linked_size]; omega,?_,?_⟩
  · intro n member
    rcases List.mem_append.mp member with member | member
    · have := onTrue.exits n member
      rw [Array.size_push] at this
      omega
    · have := onFalse.exits n member
      rw [linked_size] at this
      omega
  · intro pending f
    have next : Frontier (linked g₂ g.size second.entry) _ :=
      (onFalse.frontier _ (onTrue.first edgeless f)).link (by omega) (by omega)
    apply next.regroup
    intro n
    simp only [List.mem_append]
    tauto

theorem build_spans (visible : List String) (statement budget : Nat) (expr : Value) (g : Graph) :
    Spans g ((build visible statement budget expr).run g).2 ((build visible statement budget expr).run g).1 := by
  induction budget generalizing expr g with
  | zero =>
    rw [run_build_zero]
    exact .leaf g _ rfl
  | succ budget ih =>
    cases shown : conditional? expr with
    | none =>
      rw [run_build_plain shown]
      exact .leaf g _ rfl
    | some parts =>
      obtain ⟨test,onTrue,onFalse⟩ := parts
      cases onFalse with
      | none =>
        rw [run_build_one shown]
        exact .one rfl (ih onTrue _)
      | some onFalse =>
        rw [run_build_two shown]
        exact .two rfl (ih onTrue _) (ih onFalse _)

def stated (form : LetForm) (budget : Nat) (pending : List Nat) (index : Nat) (g : Graph) : Region × Graph :=
  let built := (build (form.visibleIn index) index budget (form.statement index)).run g
  (built.1,pending.foldl (linked · · built.1.entry) built.2)

theorem run_addStatement_body (body : form.bindings[index]? = none) (budget : Nat)
    (pending : List Nat) (g : Graph) :
    (addStatement form budget pending index).run g =
      ((stated form budget pending index g).1.exits,(stated form budget pending index g).2) := by
  unfold addStatement
  simp only [StateT.run_bind,run_linkAll,body]
  rfl

theorem run_addStatement_binding {b : Binding} (binding : form.bindings[index]? = some b)
    (budget : Nat) (pending : List Nat) (g : Graph) :
    (addStatement form budget pending index).run g = let added := stated form budget pending index g
      ([added.2.size],added.1.exits.foldl (linked · · added.2.size)
        (added.2.push { kind := .define, statement := index, defs := [b.name] })) := by
  unfold addStatement
  simp only [StateT.run_bind,run_linkAll,binding]
  rfl

theorem stated_contents (form : LetForm) (budget : Nat) (pending : List Nat) (index : Nat)
    (g : Graph) : contents (stated form budget pending index g).2 =
      contents g ++ regionNodes (form.visibleIn index) index budget (form.statement index) := by
  rw [stated,contents_foldl_linked,build_contents]

theorem addStatement_contents (form : LetForm) (budget : Nat) (pending : List Nat) (index : Nat)
    (g : Graph) : contents ((addStatement form budget pending index).run g).2 =
      contents g ++ statementNodes form budget index := by
  cases found : form.bindings[index]? with
  | none => simp [run_addStatement_body found,stated_contents,statementNodes,found]
  | some b => simp [run_addStatement_binding found,stated_contents,statementNodes,found,Node.bare]

theorem Frontier.stated (f : Frontier g pending) (budget index : Nat) :
    Frontier (stated form budget pending index g).2 (stated form budget pending index g).1.exits := by
  have spans := build_spans (form.visibleIn index) index budget (form.statement index) g
  apply Frontier.linkAll
  · apply (spans.frontier pending f).regroup
    intro n
    simp only [List.mem_append]
    exact or_comm
  · intro n member
    rw [spans.entry]
    exact f.inside n member
  · rw [spans.entry]
    exact spans.grows

theorem addStatement_frontier (form : LetForm) (budget : Nat) (pending : List Nat) (index : Nat)
    (g : Graph) (f : Frontier g pending) :
    Frontier ((addStatement form budget pending index).run g).2
      ((addStatement form budget pending index).run g).1 := by
  cases found : form.bindings[index]? with
  | none =>
    rw [run_addStatement_body found]
    exact f.stated budget index
  | some b =>
    rw [run_addStatement_binding found]
    exact (f.stated budget index).join _ rfl

theorem addStatements_run (form : LetForm) (budget : Nat) (indices pending : List Nat) (g : Graph)
    (f : Frontier g pending) :
    let after := (indices.foldlM (addStatement form budget) pending).run g
    Frontier after.2 after.1 ∧ contents after.2 = contents g ++ indices.flatMap (statementNodes form budget) := by
  induction indices generalizing pending g with
  | nil => exact ⟨f,(List.append_nil _).symm⟩
  | cons index indices ih =>
    have next := ih _ _ (addStatement_frontier form budget pending index g f)
    simp only [List.foldlM_cons,StateT.run_bind,List.flatMap_cons,← List.append_assoc,
      ← addStatement_contents form budget pending index g]
    exact next

theorem ofForm_run (form : LetForm) (budget : Nat) :
    let after := ((List.range (form.bodyIndex + 1)).foldlM (addStatement form budget) []).run #[]
    ofForm form budget = after.1.foldl (linked · · after.2.size)
      (after.2.push { kind := .exit, statement := form.bodyIndex }) := by
  unfold ofForm buildForm
  simp only [StateT.run_bind,run_linkAll]
  rfl

theorem frontier_empty : Frontier #[] [] := by
  constructor <;> simp [successors]

theorem ofForm_contents (form : LetForm) (budget : Nat) :
    contents (ofForm form budget) = formNodes form budget := by
  have built := (addStatements_run form budget (List.range (form.bodyIndex + 1)) [] #[] frontier_empty).2
  rw [ofForm_run,contents_foldl_linked,contents_push,built]
  rfl

theorem ofForm_size (form : LetForm) (budget : Nat) :
    (ofForm form budget).size = (formNodes form budget).length := by
  rw [← ofForm_contents,contents_length]

/-- Every edge leads forward, and only the last node, which is the exit, has no edge out of it. -/
theorem ofForm_frontier (form : LetForm) (budget : Nat) :
    Frontier (ofForm form budget) [(ofForm form budget).size - 1] := by
  have built := (addStatements_run form budget (List.range (form.bodyIndex + 1)) [] #[] frontier_empty).1
  rw [ofForm_run]
  simp only [foldl_linked_size,Array.size_push,Nat.add_sub_cancel]
  exact built.join _ rfl

theorem ofForm_node {budget : Nat} (found : (ofForm form budget)[n]? = some node) :
    (formNodes form budget)[n]? = some node.bare := by
  rw [← ofForm_contents,contents_getElem?,found]
  rfl

end StagedLisp.Flow
