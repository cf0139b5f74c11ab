import StagedLisp.Proofs.Flow.Death
import StagedLisp.Proofs.Form.Names

/-! A name lives as long as it is used: the last statement it is live in is none before one that
uses it, and a name that is live anywhere is used somewhere. -/
namespace StagedLisp

open List Flow

variable {m : Nat} {test onTrue : Value} {onFalse : Option Value}

namespace Flow

variable {budget n : Nat} {form : LetForm} {node : Node}

theorem mem_freeNames_conditional {expr : Value} {y : String}
    (shown : conditional? expr = some (test,onTrue,onFalse)) :
    y ∈ freeNames (budget + 1) [] [] expr ↔ y ∈ freeNames budget [] [] test ∨
      ∃ branch ∈ onTrue :: onFalse.toList, y ∈ freeNames budget [] [] branch := by
  have view : View.of? expr = some (.conditional test (onTrue :: onFalse.toList)) :=
    View.of?_items (conditional_items shown)
  rw [mem_freeNames_form view]
  simp [View.parts]

/-- Conditionals are nested in the branches of the expression less than so deep, which is how deep a
region looks. -/
def BranchesWithin : Nat → Value → Prop
  | 0,_ => False
  | budget + 1,expr => ∀ parts, conditional? expr = some parts →
    ∀ branch ∈ parts.2.1 :: parts.2.2.toList, BranchesWithin budget branch

instance BranchesWithin.decidable :
    (budget : Nat) → (expr : Value) → Decidable (BranchesWithin budget expr)
  | 0,_ => isFalse id
  | budget + 1,expr =>
    have := BranchesWithin.decidable budget
    decidable_of_iff (∀ parts ∈ conditional? expr,
      ∀ branch ∈ parts.2.1 :: parts.2.2.toList, BranchesWithin budget branch) Iff.rfl

section Region

variable {visible : List String} {statement budget : Nat} {expr : Value} {y : String}

theorem mem_regionNodes_conditional 
    (shown : conditional? expr = some (test,onTrue,onFalse)) :
    node ∈ regionNodes visible statement (budget + 1) expr ↔
      node = { kind := .branch, statement, uses := (freeVariables test).filter visible.contains
               site := expr.cell? } ∨
      ∃ branch ∈ onTrue :: onFalse.toList, node ∈ regionNodes visible statement budget branch := by
  rw [regionNodes,shown]
  cases onFalse <;> simp

/-- What an expression mentions is used by a node of its region, if the mention or the conditionals
are not nested too deep. -/
theorem regionNodes_use {depth : Nat} (small : depth ≤ walkLimit + 1)
    (reached : depth ≤ budget ∨ BranchesWithin budget expr) (seen : y ∈ visible)
    (mentioned : y ∈ freeNames depth [] [] expr) :
    ∃ node ∈ regionNodes visible statement budget expr, y ∈ node.uses := by
  have used {depth : Nat} {part : Value} (less : depth ≤ walkLimit + 1)
      (mentioned : y ∈ freeNames depth [] [] part) :
      y ∈ (freeVariables part).filter visible.contains :=
    mem_filter.mpr ⟨freeNames_mono less mentioned,by simpa using seen⟩
  induction budget generalizing expr depth with
  | zero =>
    rcases reached with none | ⟨⟨⟩⟩
    simp [Nat.le_zero.mp none,freeNames] at mentioned
  | succ budget ih =>
    cases shown : conditional? expr with
    | none =>
      rw [regionNodes,shown]
      exact ⟨_,mem_singleton_self _,used small mentioned⟩
    | some parts =>
      obtain ⟨test,onTrue,onFalse⟩ := parts
      cases depth with
      | zero => simp [freeNames] at mentioned
      | succ depth =>
        have less : depth ≤ walkLimit + 1 := Nat.le_of_succ_le small
        rcases (mem_freeNames_conditional shown).mp mentioned with inTest | ⟨branch,listed,inside⟩
        · exact ⟨_,(mem_regionNodes_conditional shown).mpr (.inl rfl),used less inTest⟩
        · have deeper : depth ≤ budget ∨ BranchesWithin budget branch :=
            reached.imp Nat.le_of_succ_le_succ fun within => within _ shown branch listed
          obtain ⟨node,member,uses⟩ := ih less deeper inside
          exact ⟨node,(mem_regionNodes_conditional shown).mpr (.inr ⟨branch,listed,member⟩),uses⟩

theorem regionNodes_visible (member : node ∈ regionNodes visible statement budget expr)
    (uses : y ∈ node.uses) : y ∈ visible := by
  have filtered {names : List String} (kept : y ∈ names.filter visible.contains) : y ∈ visible := by
    simpa using (mem_filter.mp kept).2
  induction budget generalizing expr with
  | zero =>
    cases mem_singleton.mp member
    exact filtered uses
  | succ budget ih =>
    cases shown : conditional? expr with
    | none =>
      rw [regionNodes,shown] at member
      cases mem_singleton.mp member
      exact filtered uses
    | some parts =>
      obtain ⟨test,onTrue,onFalse⟩ := parts
      rcases (mem_regionNodes_conditional shown).mp member with rfl | ⟨branch,_,inside⟩
      · exact filtered uses
      · exact ih inside

/-- Where the region looks at all conditionals, its nodes use only what the expression mentions. -/
theorem regionNodes_mentions (within : BranchesWithin budget expr)
    (member : node ∈ regionNodes visible statement budget expr) (uses : y ∈ node.uses) :
    Mentions expr y := by
  have free {part : Value} (kept : y ∈ (freeVariables part).filter visible.contains) : Mentions part y :=
    ⟨walkLimit + 1,(mem_filter.mp kept).1⟩
  induction budget generalizing expr with
  | zero => cases within
  | succ budget ih =>
    cases shown : conditional? expr with
    | none =>
      rw [regionNodes,shown] at member
      cases mem_singleton.mp member
      exact free uses
    | some parts =>
      obtain ⟨test,onTrue,onFalse⟩ := parts
      rcases (mem_regionNodes_conditional shown).mp member with rfl | ⟨branch,listed,inside⟩
      · obtain ⟨depth,mentioned⟩ := free uses
        exact ⟨depth + 1,(mem_freeNames_conditional shown).mpr (.inl mentioned)⟩
      · obtain ⟨depth,mentioned⟩ := ih (within _ shown branch listed) inside
        exact ⟨depth + 1,(mem_freeNames_conditional shown).mpr (.inr ⟨branch,listed,mentioned⟩)⟩

end Region

theorem ofForm_uses {y : String} (found : (ofForm form budget)[n]? = some node) (uses : y ∈ node.uses) :
    ∃ node' ∈ regionNodes (form.visibleIn node.statement) node.statement budget
      (form.statement node.statement), node.statement ≤ form.bodyIndex ∧ y ∈ node'.uses := by
  have listed := mem_of_getElem? (ofForm_node found)
  have uses : y ∈ node.bare.uses := uses
  rcases mem_formNodes.mp listed with ⟨index,inside,member⟩ | exit
  · have statement := statementNodes_statement member
    rcases mem_statementNodes.mp member with member | ⟨b,_,define⟩
    · rw [bare_statement] at statement
      exact ⟨node.bare,statement ▸ member,statement ▸ inside,uses⟩
    · rw [define] at uses
      cases uses
  · rw [exit] at uses
    cases uses

theorem ofForm_node_of_mem {index : Nat} (inside : index ≤ form.bodyIndex)
    (member : node ∈ regionNodes (form.visibleIn index) index budget (form.statement index)) :
    ∃ (n : Nat) (node' : Node), (ofForm form budget)[n]? = some node' ∧ node'.uses = node.uses ∧
      node'.statement = index := by
  have listed : node ∈ contents (ofForm form budget) := by
    rw [ofForm_contents]
    exact mem_formNodes.mpr (.inl ⟨index,inside,mem_statementNodes.mpr (.inl member)⟩)
  obtain ⟨node',stored,rfl⟩ := mem_map.mp listed
  obtain ⟨n,found⟩ := mem_iff_getElem?.mp stored
  rw [Array.getElem?_toList] at found
  exact ⟨n,node',found,rfl,(regionNodes_evaluate member).statement⟩

/-- Every edge leads forward, so a property that a node has if its successors do holds everywhere. -/
theorem forward_induction (form : LetForm) (budget : Nat) {P : Nat → Prop}
    (step : ∀ n, (∀ s ∈ successors (ofForm form budget) n, P s) → P n) (n : Nat) : P n := by
  induction left : (ofForm form budget).size - n using Nat.strongRecOn generalizing n with
  | ind k ih =>
    refine step n fun s edge => ih _ ?_ s rfl
    have := (ofForm_frontier form budget).forward n s edge
    omega

theorem ofForm_statement_le {a b : Node} (before : m < n)
    (first : (ofForm form budget)[m]? = some a) (second : (ofForm form budget)[n]? = some b) :
    a.statement ≤ b.statement := by
  obtain ⟨boundM,atM⟩ := List.getElem?_eq_some_iff.mp (ofForm_node first)
  obtain ⟨boundN,atN⟩ := List.getElem?_eq_some_iff.mp (ofForm_node second)
  have sorted := pairwise_iff_getElem.mp (formNodes_sorted form budget) m n boundM boundN before
  rwa [atM,atN,bare_statement,bare_statement] at sorted

theorem ofForm_next {s : Nat} (found : (ofForm form budget)[n]? = some node)
    (edge : s ∈ node.succs) : s ∈ successors (ofForm form budget) n ∧
      ∃ next, (ofForm form budget)[s]? = some next ∧ node.statement ≤ next.statement := by
  have leads : s ∈ successors (ofForm form budget) n := by rwa [successors_of_getElem? found]
  obtain ⟨less,inside⟩ := (ofForm_frontier form budget).forward n s leads
  have next := Array.getElem?_eq_getElem inside
  exact ⟨leads,_,next,ofForm_statement_le less found next⟩

theorem ofForm_last (found : (ofForm form budget)[n]? = some node) (last : node.succs = []) : node.uses = [] := by
  have inside := (Array.getElem?_eq_some_iff.mp found).1
  have pending := (ofForm_frontier form budget).ends n inside ((successors_of_getElem? found).trans last)
  have exit := ofForm_node found
  rw [mem_singleton.mp pending,ofForm_size,formNodes] at exit
  simp only [length_append,length_singleton,Nat.add_sub_cancel,getElem?_concat_length,Option.some.injEq] at exit
  have uses : node.bare.uses = [] := by rw [← exit]
  exact uses

end Flow

namespace Liveness

variable {form : LetForm} {cap depth : Nat} {x : String}

variable {n : Nat} {node : Node}

section

variable (positive : 0 < cap) (found : (ofForm form cap depth).graph[n]? = some node)

include positive found

theorem mem_into : x ∈ (ofForm form cap depth).solution.live.into n ↔ x ∈ node.uses ∨
      (∃ s ∈ node.succs, x ∈ (ofForm form cap depth).solution.live.into s) ∧ x ∉ node.defs := by
  obtain ⟨out,into⟩ := (ofForm_solves_of_pos positive).balanced n node found
  rw [into,out,mem_liveBefore,mem_liveAfter]

theorem dies_later (alive : x ∈ (ofForm form cap depth).solution.live.into n) :
    ∃ d ∈ (ofForm form cap depth).deaths, d.name = x ∧ node.statement ≤ d.statement := by
  induction n using forward_induction form depth generalizing node with
  | step n ih =>
    by_cases dead : deadEdges (ofForm form cap depth).solution.live node x = []
    · -- The name is live on all edges, and there is one, as the exit uses nothing.
      have onAll : ∀ s ∈ node.succs, x ∈ (ofForm form cap depth).solution.live.into s := by
        intro s edge
        by_contra none
        obtain ⟨k,bound,at'⟩ := getElem_of_mem edge
        have member : k ∈ deadEdges (ofForm form cap depth).solution.live node x :=
          mem_deadEdges.mpr ⟨s,List.getElem?_eq_some_iff.mpr ⟨bound,at'⟩,none⟩
        rw [dead] at member
        cases member
      cases succs : node.succs with
      | nil =>
        have none := ofForm_last found succs
        rcases (mem_into positive found).mp alive with uses | ⟨⟨s,edge,_⟩,_⟩
        · rw [none] at uses
          cases uses
        · rw [succs] at edge
          cases edge
      | cons s rest =>
        have edge : s ∈ node.succs := succs ▸ mem_cons_self
        obtain ⟨leads,_,next,after⟩ := ofForm_next found edge
        obtain ⟨d,listed,named,later⟩ := ih s leads next (onAll s edge)
        exact ⟨d,listed,named,after.trans later⟩
    · obtain ⟨d,listed,named,_,statement,_⟩ := exists_death found alive dead
      exact ⟨d,listed,named,statement.ge⟩

theorem used_later (alive : x ∈ (ofForm form cap depth).solution.live.into n) :
    ∃ (m : Nat) (user : Node), (ofForm form cap depth).graph[m]? = some user ∧
      x ∈ user.uses ∧ node.statement ≤ user.statement := by
  induction n using forward_induction form depth generalizing node with
  | step n ih =>
    rcases (mem_into positive found).mp alive with uses | ⟨⟨s,edge,later⟩,_⟩
    · exact ⟨n,node,found,uses,le_rfl⟩
    · obtain ⟨leads,_,next,after⟩ := ofForm_next found edge
      obtain ⟨m,user,there,uses,last⟩ := ih s leads next later
      exact ⟨m,user,there,uses,after.trans last⟩

end

theorem lastStatement_of_mention (positive : 0 < cap) {budget : Nat} (small : budget ≤ walkLimit + 1)
    {j : Nat} (reached : budget ≤ depth ∨ BranchesWithin depth (form.statement j))
    (inside : j ≤ form.bodyIndex) (seen : x ∈ form.visibleIn j)
    (mentioned : x ∈ freeNames budget [] [] (form.statement j)) :
    ∃ m, (ofForm form cap depth).lastStatement? x = some m ∧ j ≤ m := by
  obtain ⟨node,member,uses⟩ := regionNodes_use small reached seen mentioned
  obtain ⟨n,node',found,same,rfl⟩ := ofForm_node_of_mem inside member
  have alive : x ∈ (ofForm form cap depth).solution.live.into n :=
    (mem_into positive found).mpr (.inl (same ▸ uses))
  obtain ⟨d,listed,rfl,later⟩ := dies_later positive found alive
  have among : d.statement ∈ ((ofForm form cap depth).deathsOf d.name).map Death.statement := by
    apply mem_map_of_mem
    exact mem_filter.mpr ⟨listed,beq_self_eq_true _⟩
  obtain ⟨m,last⟩ := Option.isSome_iff_exists.mp (isSome_max?_of_mem among)
  exact ⟨m,last,later.trans ((max?_eq_some_iff.mp last).2 _ among)⟩

theorem positive_of_lastStatement
    (last : (ofForm form cap depth).lastStatement? x = some m) : 0 < cap := by
  obtain ⟨d,filtered,_⟩ := mem_map.mp (max?_mem last)
  obtain ⟨node,found,dies⟩ := mem_deaths.mp (mem_filter.mp filtered).1
  apply Nat.pos_of_ne_zero
  rintro rfl
  have alive := (mem_deathsAt.mp dies).1
  rw [solve,into_empty] at alive
  cases alive

theorem use_of_lastStatement (positive : 0 < cap)
    (last : (ofForm form cap depth).lastStatement? x = some m) :
    ∃ j, m ≤ j ∧ j ≤ form.bodyIndex ∧ x ∈ form.visibleIn j ∧
      ∃ node ∈ regionNodes (form.visibleIn j) j depth (form.statement j), x ∈ node.uses := by
  obtain ⟨d,filtered,rfl⟩ := mem_map.mp (max?_mem last)
  obtain ⟨listed,named⟩ := mem_filter.mp filtered
  obtain ⟨node,found,dies⟩ := mem_deaths.mp listed
  obtain ⟨alive,_,_,_,statement,_⟩ := mem_deathsAt.mp dies
  rw [beq_iff_eq.mp named] at alive
  obtain ⟨n,user,there,uses,later⟩ := used_later positive found alive
  obtain ⟨node',member,inside,uses'⟩ := ofForm_uses there uses
  exact ⟨user.statement,statement ▸ later,inside,regionNodes_visible member uses',node',member,uses'⟩

end Liveness

end StagedLisp
