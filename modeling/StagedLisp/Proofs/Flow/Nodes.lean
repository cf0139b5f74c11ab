import StagedLisp.Proofs.Flow.Graph
import StagedLisp.Proofs.Form.Let
import StagedLisp.Proofs.Form.View

/-! The nodes of a form, statement by statement. Nodes come in the order of their statements, the
nodes of the body define nothing, and its conditionals can be told apart by their cells. -/
namespace StagedLisp.Flow

open List

structure Evaluates (statement : Nat) (node : Node) : Prop where
  statement : node.statement = statement
  defs : node.defs = []
  kind : node.kind = .expr ∨ node.kind = .branch

variable {statement budget index : Nat} {node : Node} {form : LetForm} {nodes : List Node}

theorem regionNodes_evaluate {visible : List String} {expr : Value}
    (member : node ∈ regionNodes visible statement budget expr) : Evaluates statement node := by
  induction budget generalizing expr with
  | zero =>
    rw [regionNodes,mem_singleton] at member
    subst member
    exact ⟨rfl,rfl,.inl rfl⟩
  | succ budget ih =>
    rw [regionNodes] at member
    split at member
    · rw [mem_singleton] at member
      subst member
      exact ⟨rfl,rfl,.inl rfl⟩
    · rcases mem_cons.mp member with rfl | member
      · exact ⟨rfl,rfl,.inr rfl⟩
      rcases mem_append.mp member with member | member
      · exact ih member
      · split at member
        · simp at member
        · exact ih member

theorem mem_statementNodes : node ∈ statementNodes form budget index ↔
      node ∈ regionNodes (form.visibleIn index) index budget (form.statement index) ∨
      ∃ b, form.bindings[index]? = some b ∧ node = { kind := .define, statement := index, defs := [b.name] } := by
  unfold statementNodes
  cases form.bindings[index]? <;> simp

theorem statementNodes_statement (member : node ∈ statementNodes form budget index) : node.statement = index := by
  rcases mem_statementNodes.mp member with member | ⟨b,_,rfl⟩
  · exact (regionNodes_evaluate member).statement
  · rfl

theorem mem_formNodes : node ∈ formNodes form budget ↔
      (∃ index, index ≤ form.bodyIndex ∧ node ∈ statementNodes form budget index) ∨
      node = { kind := .exit, statement := form.bodyIndex } := by
  simp [formNodes,Nat.lt_succ_iff]

theorem formNodes_statement_le (member : node ∈ formNodes form budget) : node.statement ≤ form.bodyIndex := by
  rcases mem_formNodes.mp member with ⟨index,bound,member⟩ | rfl
  · rw [statementNodes_statement member]
    exact bound
  · exact Nat.le_refl _

theorem formNodes_sorted (form : LetForm) (budget : Nat) :
    (formNodes form budget).Pairwise fun a b => a.statement ≤ b.statement := by
  rw [formNodes,pairwise_append]
  refine ⟨?_,pairwise_singleton _ _,?_⟩
  · rw [pairwise_flatMap]
    constructor
    · intro index _
      apply pairwise_of_forall_mem_list
      intro a memberA b memberB
      exact Nat.le_of_eq ((statementNodes_statement memberA).trans (statementNodes_statement memberB).symm)
    · apply pairwise_lt_range.imp
      intro i j less a memberA b memberB
      rw [statementNodes_statement memberA,statementNodes_statement memberB]
      exact Nat.le_of_lt less
  · intro a memberA b memberB
    obtain ⟨index,bound,memberA⟩ := mem_flatMap.mp memberA
    rw [mem_singleton.mp memberB,statementNodes_statement memberA]
    exact Nat.le_of_lt_succ (mem_range.mp bound)

end StagedLisp.Flow
