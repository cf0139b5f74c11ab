import StagedLisp.Proofs.Flow.Exact

/-! The lifetime of a binding. A form defines each of its names at one node, and that node leads only to
the one after it. On every path from there to the exit, a name that is live after its definition dies
along exactly one edge, and any other name along none. -/
namespace StagedLisp

open List Flow

namespace Flow

variable {node : Node} {form : LetForm} {budget n target s source : Nat} {g : Graph} {pending : List Nat}

theorem Evaluates.other {statement : Nat} (evaluates : Evaluates statement node) :
    node.kind ≠ .define ∧ node.kind ≠ .exit := by
  rcases evaluates.kind with kind | kind <;> simp [kind]

theorem regionNodes_defs (visible : List String) (statement budget : Nat) (expr : Value) :
    (regionNodes visible statement budget expr).flatMap Node.defs = [] := by
  apply flatMap_eq_nil_iff.mpr
  intro node member
  exact (regionNodes_evaluate member).defs

theorem statementNodes_defs (form : LetForm) (budget index : Nat) :
    (statementNodes form budget index).flatMap Node.defs = form.names[index]?.toList := by
  rw [statementNodes,flatMap_append,regionNodes_defs,LetForm.names,getElem?_map]
  cases form.bindings[index]? <;> rfl

theorem formNodes_defs (form : LetForm) (budget : Nat) :
    (formNodes form budget).flatMap Node.defs = form.names := by
  have upTo (count : Nat) : ((List.range count).flatMap (statementNodes form budget)).flatMap Node.defs =
        form.names.take count := by
    induction count with
    | zero => rfl
    | succ count ih =>
      rw [range_succ,flatMap_append,flatMap_append,ih,take_add_one,← statementNodes_defs form budget]
      simp
  have all : form.names.take (form.bodyIndex + 1) = form.names := LetForm.take_names (Nat.le_succ _)
  rw [formNodes,flatMap_append,upTo,all]
  simp

theorem ofForm_not_redefined (distinct : form.names.Nodup) {m : Nat} {a b : Node} {x : String}
    (defined : (ofForm form budget)[n]? = some a) (here : x ∈ a.defs) (later : n < m)
    (found : (ofForm form budget)[m]? = some b) : x ∉ b.defs := by
  rw [← formNodes_defs form budget] at distinct
  obtain ⟨boundN,atN⟩ := List.getElem?_eq_some_iff.mp (ofForm_node defined)
  obtain ⟨boundM,atM⟩ := List.getElem?_eq_some_iff.mp (ofForm_node found)
  have apart := pairwise_iff_getElem.mp (nodup_flatMap.mp distinct).2 n m boundN boundM later
  rw [atN,atM] at apart
  exact fun there => apart here there

theorem mem_successors_linked (inside : source < g.size) : s ∈ successors (linked g source target) n ↔
      s ∈ successors g n ∨ n = source ∧ s = target := by
  rw [successors_linked g source target n inside]
  split
  · next new => simp [new.1]
  · next old =>
    refine ⟨.inl,fun either => either.elim id ?_⟩
    rintro ⟨rfl,rfl⟩
    by_contra absent
    exact old ⟨rfl,absent⟩

theorem mem_successors_foldl_linked {sources : List Nat} (inside : ∀ m ∈ sources, m < g.size) :
    s ∈ successors (sources.foldl (linked · · target) g) n ↔ s ∈ successors g n ∨ n ∈ sources ∧ s = target := by
  induction sources generalizing g with
  | nil => simp
  | cons source sources ih =>
    rw [foldl_cons,ih,mem_successors_linked (inside source mem_cons_self)]
    · simp only [mem_cons]
      tauto
    · intro m member
      rw [linked_size]
      exact inside m (.tail _ member)

theorem successors_push_of_lt (old : n < g.size) : successors (g.push node) n = successors g n := by
  rw [successors_push,if_neg old.ne]

theorem successors_linked_of_ne (other : n ≠ source) : successors (linked g source target) n = successors g n := by
  by_cases known : target ∈ successors g source
  · rw [linked_of_mem known]
  · rw [linked_of_not_mem known]
    unfold successors
    rw [Array.getElem?_modify,Array.getElem?_modify,if_neg other.symm]
    by_cases hit : target = n
    · rw [if_pos hit]
      cases g[n]? <;> rfl
    · rw [if_neg hit]

theorem build_successors (visible : List String) (statement budget : Nat) (expr : Value) (g : Graph)
    (old : n < g.size) :
    successors ((build visible statement budget expr).run g).2 n = successors g n := by
  induction budget generalizing expr g with
  | zero => exact successors_push_of_lt old
  | succ budget ih =>
    cases shown : conditional? expr with
    | none =>
      rw [run_build_plain shown]
      exact successors_push_of_lt old
    | some parts =>
      obtain ⟨test,onTrue,onFalse⟩ := parts
      -- The edges that are added start at the test, which is the first node of the region.
      have test (node : Node) : n < (g.push node).size := by
        rw [Array.size_push]
        omega
      have first (node : Node) (target : Nat) :
          successors (linked ((build visible statement budget onTrue).run (g.push node)).2 g.size
            target) n = successors g n := by
        rw [successors_linked_of_ne old.ne,ih onTrue _ (test node),successors_push_of_lt old]
      cases onFalse with
      | none =>
        rw [run_build_one shown]
        exact first _ _
      | some onFalse =>
        rw [run_build_two shown]
        dsimp only
        rw [successors_linked_of_ne old.ne,ih onFalse,first]
        rw [linked_size]
        exact (test _).trans (build_spans visible statement budget onTrue _).grows

def Defines (g : Graph) (n : Nat) : Prop :=
  ∃ node, (contents g)[n]? = some node ∧ node.kind = .define

/-- A definition leads to the node after it, and is the last node as long as it is pending. -/
structure Chained (g : Graph) (pending : List Nat) : Prop where
  next : ∀ n s, Defines g n → s ∈ successors g n → s = n + 1
  last : ∀ n ∈ pending, Defines g n → n + 1 = g.size

theorem Chained.join {g' : Graph} (chained : Chained g pending) (inside : ∀ n ∈ pending, n < g.size)
    (grows : g.size ≤ g'.size)
    (old : ∀ n < g.size, (Defines g' n → Defines g n) ∧ successors g' n = successors g n)
    (new : ∀ n, g.size ≤ n → Defines g' n → successors g' n = [])
    (defines : Defines (pending.foldl (linked · · g.size) g') n)
    (edge : s ∈ successors (pending.foldl (linked · · g.size) g') n) : s = n + 1 := by
  rw [Defines,contents_foldl_linked] at defines
  rw [mem_successors_foldl_linked fun m member => (inside m member).trans_le grows] at edge
  rcases Nat.lt_or_ge n g.size with before | after
  · obtain ⟨known,same⟩ := old n before
    rcases edge with edge | ⟨member,rfl⟩
    · exact chained.next n s (known defines) (same ▸ edge)
    · exact (chained.last n member (known defines)).symm
  · rcases edge with edge | ⟨member,_⟩
    · rw [new n after defines] at edge
      cases edge
    · exact absurd (inside n member) (not_lt.mpr after)

theorem defines_push (old : n < g.size) : Defines (g.push node) n ↔ Defines g n := by
  rw [Defines,contents_push,getElem?_append_left (by simpa using old)]
  rfl

theorem defines_bound (defines : Defines g n) : n < g.size := by
  obtain ⟨node,found,_⟩ := defines
  simpa using lt_of_getElem? found

theorem Chained.push (chained : Chained g pending) (inside : ∀ n ∈ pending, n < g.size)
    (node : Node) (edgeless : node.succs = []) :
    Chained (pending.foldl (linked · · g.size) (g.push node)) [g.size] := by
  constructor
  · intro n s
    apply chained.join inside
    · simp
    · exact fun n before => ⟨(defines_push before).mp,successors_push_of_lt before⟩
    · intro n after defines
      have bound := defines_bound defines
      rw [Array.size_push] at bound
      rw [successors_push,if_pos (by omega),edgeless]
  · intro n member _
    rw [foldl_linked_size,Array.size_push,mem_singleton.mp member]

theorem Chained.stated {index : Nat} (chained : Chained g pending) (inside : ∀ n ∈ pending, n < g.size) :
    Chained (stated form budget pending index g).2 (stated form budget pending index g).1.exits := by
  have spans := build_spans (form.visibleIn index) index budget (form.statement index) g
  have built := build_contents (form.visibleIn index) index budget (form.statement index) g
  have fresh {n : Nat} (after : g.size ≤ n) : ¬ Defines
      ((build (form.visibleIn index) index budget (form.statement index)).run g).2 n := by
    rintro ⟨node,found,define⟩
    rw [built,getElem?_append_right (by simpa using after)] at found
    exact (regionNodes_evaluate (mem_of_getElem? found)).other.1 define
  constructor
  · intro n s defines edge
    unfold Flow.stated at defines edge
    dsimp only at defines edge
    rw [spans.entry] at defines edge
    refine chained.join inside spans.grows.le ?_ ?_ defines edge
    · refine fun n before => ⟨?_,build_successors _ _ _ _ g before⟩
      rw [Defines,built,getElem?_append_left (by simpa using before)]
      exact id
    · exact fun n after defines => absurd defines (fresh after)
  · intro n exit defines
    rw [Defines,stated_contents,← built] at defines
    exact absurd defines (fresh (spans.exits n exit))

theorem addStatement_chained (form : LetForm) (budget index : Nat) (frontier : Frontier g pending)
    (chained : Chained g pending) :
    Chained ((addStatement form budget pending index).run g).2
      ((addStatement form budget pending index).run g).1 := by
  have joined : Chained (stated form budget pending index g).2 _ := chained.stated frontier.inside
  cases found : form.bindings[index]? with
  | none =>
    rw [run_addStatement_body found]
    exact joined
  | some b =>
    rw [run_addStatement_binding found]
    exact joined.push (frontier.stated budget index).inside _ rfl

theorem addStatements_chained (form : LetForm) (budget : Nat) (indices : List Nat)
    (frontier : Frontier g pending) (chained : Chained g pending) :
    let after := (indices.foldlM (addStatement form budget) pending).run g
    Chained after.2 after.1 := by
  induction indices generalizing g pending with
  | nil => exact chained
  | cons index indices ih =>
    simp only [foldlM_cons,StateT.run_bind]
    exact ih (addStatement_frontier form budget pending index g frontier)
      (addStatement_chained form budget index frontier chained)

variable (found : (ofForm form budget)[n]? = some node)

include found

theorem ofForm_definition_next (define : node.kind = .define)
    (edge : s ∈ successors (ofForm form budget) n) : s = n + 1 := by
  have start : Chained #[] [] := ⟨fun n s _ edge => by simp [successors] at edge,by simp⟩
  have built := addStatements_chained form budget (List.range (form.bodyIndex + 1)) frontier_empty start
  have inside := (addStatements_run form budget (List.range (form.bodyIndex + 1)) [] #[] frontier_empty).1.inside
  have whole := (built.push inside { kind := .exit, statement := form.bodyIndex } rfl).next n s
  rw [← ofForm_run] at whole
  apply whole _ edge
  exact ⟨node.bare,by rw [contents_getElem?,found]; rfl,define⟩

theorem ofForm_definition_uses (define : node.kind = .define) : node.uses = [] := by
  have uses : node.bare.uses = [] := by
    rcases mem_formNodes.mp (mem_of_getElem? (ofForm_node found)) with ⟨_,_,member⟩ | exit
    · rcases mem_statementNodes.mp member with member | ⟨b,_,same⟩
      · exact absurd define (regionNodes_evaluate member).other.1
      · rw [same]
    · rw [exit]
  exact uses

theorem ofForm_exit (exit : node.kind = .exit) : node.uses = [] ∧ node.succs = [] := by
  have listed := ofForm_node found
  rw [formNodes,getElem?_append] at listed
  split at listed
  · obtain ⟨index,_,member⟩ := mem_flatMap.mp (mem_of_getElem? listed)
    rcases mem_statementNodes.mp member with member | ⟨b,_,same⟩
    · exact absurd exit (regionNodes_evaluate member).other.2
    · have define : node.bare.kind = .define := by rw [same]
      cases exit.symm.trans define
  · next last =>
    have uses : node.bare.uses = [] := by
      rw [mem_singleton.mp (mem_of_getElem? listed)]
    refine ⟨uses,eq_nil_iff_forall_not_mem.mpr ?_⟩
    intro s edge
    have size := ofForm_size form budget
    rw [formNodes,length_append,length_singleton] at size
    have leads := (ofForm_frontier form budget).forward n s (mem_successors.mpr ⟨node,found,edge⟩)
    omega

end Flow

namespace Liveness

variable {form : LetForm} {cap depth : Nat} {x : String}

def recordsDeath (l : Liveness) (x : String) (edge : Nat × Nat) : Bool :=
  (l.deathsOf x).any fun d => d.node == edge.1 && d.edges.contains edge.2

theorem recordsDeath_iff {edge : Nat × Nat} : (ofForm form cap depth).recordsDeath x edge = true ↔
    (ofForm form cap depth).DiesAlong x edge := by
  simp only [recordsDeath,deathsOf,any_eq_true,mem_filter,Bool.and_eq_true,beq_iff_eq,contains_iff_mem]
  constructor
  · rintro ⟨d,⟨listed,rfl⟩,at',member⟩
    obtain ⟨_,_,_,_,dies⟩ := ofForm_death listed
    rw [at'] at dies
    exact dies edge.2 member
  · rintro ⟨alive,s,taken,gone⟩
    obtain ⟨node,found,_⟩ := mem_successors.mp (mem_of_getElem? taken)
    rw [successors_of_getElem? found] at taken
    have dead : edge.2 ∈ deadEdges (ofForm form cap depth).solution.live node x := mem_deadEdges.mpr ⟨s,taken,gone⟩
    obtain ⟨d,listed,named,at',_,edges⟩ := exists_death found alive (ne_nil_of_mem dead)
    exact ⟨d,⟨listed,named⟩,at',edges ▸ dead⟩

/-- Where nothing defines a name any more, a path to a node before which it is dead has one edge along
which it dies if it is live in the beginning, and none if it is not. -/
theorem path_deaths (positive : 0 < cap) {n last : Nat} {edges : List (Nat × Nat)}
    (path : Path (ofForm form cap depth).graph n edges last)
    (kept : ∀ m node, n ≤ m → (ofForm form cap depth).graph[m]? = some node → x ∉ node.defs)
    (gone : x ∉ (ofForm form cap depth).solution.live.into last) :
    edges.countP ((ofForm form cap depth).recordsDeath x) =
      if x ∈ (ofForm form cap depth).solution.live.into n then 1 else 0 := by
  induction path with
  | done => simp [gone]
  | @step n k s last edges taken rest ih =>
    obtain ⟨node,found,edge⟩ := mem_successors.mp (mem_of_getElem? taken)
    have forward := (ofForm_frontier form depth).forward n s (mem_of_getElem? taken)
    have flows : x ∈ (ofForm form cap depth).solution.live.into s →
        x ∈ (ofForm form cap depth).solution.live.into n := fun alive =>
      (ofForm_solves_of_pos positive).flow found edge alive (kept n node le_rfl found)
    have here : (ofForm form cap depth).recordsDeath x (n,k) = true ↔
        x ∈ (ofForm form cap depth).solution.live.into n ∧ x ∉ (ofForm form cap depth).solution.live.into s := by
      rw [recordsDeath_iff]
      constructor
      · rintro ⟨alive,s',taken',dead⟩
        cases taken.symm.trans taken'
        exact ⟨alive,dead⟩
      · exact fun ⟨alive,dead⟩ => ⟨alive,s,taken,dead⟩
    rw [countP_cons,ih (fun m node later => kept m node (by omega)) gone]
    simp only [here]
    by_cases after : x ∈ (ofForm form cap depth).solution.live.into s
    · simp [after,flows after]
    · by_cases before : x ∈ (ofForm form cap depth).solution.live.into n <;> simp [after,before]

/-- From its definition to the exit, a name dies along exactly one edge of every path if it is live
after the definition, and along none if it is not. -/
theorem dies_once_after_definition (form : LetForm) (cap depth : Nat) (positive : 1 ≤ cap)
    (distinct : form.names.Nodup) {x : String} {n last : Nat} {path : List (Nat × Nat)}
    {definition exit : Flow.Node} :
    let l := ofForm form cap depth
    l.graph[n]? = some definition → definition.kind = .define → definition.defs = [x] →
    l.graph[last]? = some exit → exit.kind = .exit → Flow.Path l.graph n path last →
    path.countP (l.recordsDeath x) = if x ∈ l.solution.live.outOf n then 1 else 0 := by
  intro l found define defs there ends walk
  have gone : x ∉ l.solution.live.into last := by
    obtain ⟨uses,succs⟩ := Flow.ofForm_exit there ends
    rw [mem_into positive there,uses,succs]
    simp
  cases walk with
  | done =>
    cases found.symm.trans there
    cases define.symm.trans ends
  | @step _ k s _ edges taken rest =>
    -- The definition has one edge, and the name is dead before it.
    have edge := mem_of_getElem? taken
    have next : s = n + 1 := Flow.ofForm_definition_next found define edge
    have out : x ∈ l.solution.live.outOf n ↔ x ∈ l.solution.live.into s := by
      rw [(ofForm_solves_of_pos positive).mem_outOf]
      refine ⟨?_,fun alive => ⟨s,edge,alive⟩⟩
      rintro ⟨s',edge',alive⟩
      rwa [next,← Flow.ofForm_definition_next found define edge']
    have before : l.recordsDeath x (n,k) = false := by
      rw [Bool.eq_false_iff,ne_eq,recordsDeath_iff]
      rintro ⟨alive,_⟩
      rw [mem_into positive found,Flow.ofForm_definition_uses found define,defs] at alive
      simp at alive
    have after := path_deaths positive rest (fun m node later at' =>
      Flow.ofForm_not_redefined distinct found (defs ▸ mem_singleton_self x) (by omega) at') gone
    rw [countP_cons,after,before]
    simp only [out]
    rfl

/-- The form `(let ((x (cons 1 2)) (y x)) (if (car y) (if (cdr x) y) 5))`. -/
def usedOnBranches : LetForm where
  kind := .plain
  bindings := [
    ⟨"x",.pair 0 (.sym "cons") (.pair 1 (.int 1) (.pair 2 (.int 2) .nil))⟩,
    ⟨"y",.sym "x"⟩]
  body := .pair 3 (.sym "if") (.pair 4 (.pair 5 (.sym "car") (.pair 6 (.sym "y") .nil))
    (.pair 7 (.pair 8 (.sym "if") (.pair 9 (.pair 10 (.sym "cdr") (.pair 11 (.sym "x") .nil))
      (.pair 12 (.sym "y") .nil))) (.pair 13 (.int 5) .nil)))

/-- The name `x` dies on entry to the second branch, and `y` where the inner conditional has none. -/
theorem usedOnBranches_dies_once :
    let l := ofForm usedOnBranches 1 256
    usedOnBranches.names.Nodup ∧
      l.recordsDeath "x" (4,1) = true ∧ l.recordsDeath "y" (5,1) = true ∧
      Flow.Path l.graph 1 [(1,0),(2,0),(3,0),(4,1),(7,0)] 8 ∧
      [(1,0),(2,0),(3,0),(4,1),(7,0)].countP (l.recordsDeath "x") = 1 ∧
      Flow.Path l.graph 3 [(3,0),(4,0),(5,1)] 8 ∧
      [(3,0),(4,0),(5,1)].countP (l.recordsDeath "y") = 1 := by
  intro l
  have distinct : usedOnBranches.names.Nodup := by decide
  have second : Flow.Path l.graph 1 [(1,0),(2,0),(3,0),(4,1),(7,0)] 8 :=
    .step (s := 2) (by decide +kernel) (.step (s := 3) (by decide +kernel)
      (.step (s := 4) (by decide +kernel) (.step (s := 7) (by decide +kernel)
        (.step (s := 8) (by decide +kernel) .done))))
  have past : Flow.Path l.graph 3 [(3,0),(4,0),(5,1)] 8 :=
    .step (s := 4) (by decide +kernel) (.step (s := 5) (by decide +kernel)
      (.step (s := 8) (by decide +kernel) .done))
  have node (n : Nat) (kind : Flow.NodeKind) (defs : List String)
      (shown : (l.graph[n]?.map fun node => (node.kind,node.defs)) = some (kind,defs)) :
      ∃ node, l.graph[n]? = some node ∧ node.kind = kind ∧ node.defs = defs := by
    obtain ⟨node,found,same⟩ := Option.map_eq_some_iff.mp shown
    cases same
    exact ⟨node,found,rfl,rfl⟩
  obtain ⟨_,foundX,defineX,defsX⟩ := node 1 .define ["x"] (by decide +kernel)
  obtain ⟨_,foundY,defineY,defsY⟩ := node 3 .define ["y"] (by decide +kernel)
  obtain ⟨_,there,ends,_⟩ := node 8 .exit [] (by decide +kernel)
  have onceX := dies_once_after_definition usedOnBranches 1 256 (by decide) distinct foundX defineX
    defsX there ends second
  have onceY := dies_once_after_definition usedOnBranches 1 256 (by decide) distinct foundY defineY
    defsY there ends past
  rw [if_pos (by decide +kernel)] at onceX onceY
  exact ⟨distinct,by decide +kernel,by decide +kernel,second,onceX,past,onceY⟩

end Liveness

end StagedLisp
