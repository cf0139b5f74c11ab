import StagedLisp.Proofs.Flow.Mention
import StagedLisp.Proofs.Release.Order
import StagedLisp.Proofs.Release.Outer

/-! Early releases. Of all names of a storage, the one that gives it back is needed last. So no statement
after an early release mentions the released name, another name of its storage or a part of one. -/
namespace StagedLisp

namespace Ownership

variable {form : LetForm} {l : Liveness} {o : Ownership} {x y z : String}

theorem owner_tracks (owns : o.owner? x = some x)
    (family : z = x ∨ z = o.root x ∨ z ∈ o.aliases (o.root x) ∧ (o.held z).declared = true)
    (reads : z = y ∨ y ∈ o.projections z) : o.tracks x y = true := by
  obtain ⟨root,self,place⟩ := owner_self owns
  rw [tracks_iff]
  rcases family with rfl | rfl | ⟨listed,declared⟩
  · exact ⟨z,place.imp_left Eq.symm,self,reads⟩
  · exact ⟨_,.inl rfl,root,reads⟩
  · exact ⟨z,.inr listed,declared,reads⟩

/-- The owner of a storage is needed until a statement that mentions it or a part of it, and no later
one mentions a name of the storage or a part of one. -/
theorem releasePoint_last_mention {cap depth k : Nat} (seen : form.SeenWithin depth) :
    let o := ofForm form (Liveness.ofForm form cap depth)
    o.owner? x = some x → o.releasePoint? x = some k →
    (∃ y, (x = y ∨ y ∈ o.projections x) ∧ form.MentionsAt y k) ∧
    ∀ j y z, (z = x ∨ z = o.root x ∨ z ∈ o.aliases (o.root x) ∧ z ∈ form.names) →
      (z = y ∨ y ∈ o.projections z) → form.MentionsAt y j → j ≤ k := by
  intro o owns point
  have known (name : String) : (o.held name).declared = true ↔ name ∈ form.names := ofForm_declared form _ name
  have declared := (known x).mp (owner_self owns).2.1
  obtain ⟨user,reads,live⟩ := ofForm_releasePoint declared point
  have positive := Liveness.positive_of_lastStatement live
  have bound (j : Nat) (y z : String) (family : z = x ∨ z = o.root x ∨ z ∈ o.aliases (o.root x) ∧ z ∈ form.names)
      (reads : z = y ∨ y ∈ o.projections z) (mentions : form.MentionsAt y j) : j ≤ k := by
    rw [← known] at family
    obtain ⟨m,last,later⟩ := Liveness.lastStatement_ge_mention positive seen mentions
    have covered := ofForm_needed owns (owner_tracks owns family reads)
      (LetForm.mem_names_of_visible mentions.visible) last
    rw [point,rank] at covered
    omega
  refine ⟨?_,bound⟩
  obtain ⟨j,after,mentions⟩ := Liveness.mention_ge_lastStatement positive seen live
  have reads : x = user ∨ user ∈ o.projections x := reads.imp_left Eq.symm
  have same : j = k := (bound j user x (.inl rfl) reads mentions).antisymm after
  exact ⟨user,reads,same ▸ mentions⟩

end Ownership

namespace Analysis

theorem early_owner {form : LetForm} {known : Table Shape} {options : Options} {x : String} {k : Nat}
    (early : (ofForm form known options).earlyStatement? x = some k) :
    let o := Ownership.ofForm form (Liveness.ofForm form options.livenessCap options.analysisDepth)
    o.owner? x = some x ∧ o.releasePoint? x = some k ∧ k < form.bodyIndex := by
  obtain ⟨own,point,before⟩ := Plans.earlyStatement_eq early
  rw [ofForm_ownership] at own point
  obtain ⟨h,found,_⟩ := Ownership.used_of_releasePoint point
  rw [ofForm_names,form.length_names] at before
  exact ⟨Ownership.owner_of_own found own,point,before⟩

/-- An early release comes before the body and right after a statement that mentions the released name or
a part of it. No later statement mentions that name, another name of its storage or a part of one. -/
theorem early_after_mentions (form : LetForm) (known : Table Shape) (options : Options)
    (seen : form.SeenWithin options.analysisDepth) {x : String} {k : Nat}
    (early : (ofForm form known options).earlyStatement? x = some k) :
    let o := (ofForm form known options).ownership
    k < form.bodyIndex ∧ (∃ y, (x = y ∨ y ∈ o.projections x) ∧ form.MentionsAt y k) ∧
    ∀ j y, k < j → form.MentionsAt y j →
      ∀ z, z = x ∨ z = o.root x ∨ z ∈ o.aliases (o.root x) ∧ z ∈ form.names →
        y ≠ z ∧ y ∉ o.projections z := by
  dsimp only
  rw [ofForm_ownership]
  obtain ⟨owns,point,before⟩ := early_owner early
  obtain ⟨here,bound⟩ := Ownership.releasePoint_last_mention seen owns point
  refine ⟨before,here,?_⟩
  intro j y after mentions z family
  have silent := fun reads => Nat.not_le_of_lt after (bound j y z family reads mentions)
  exact ⟨fun same => silent (.inl same.symm),fun part => silent (.inr part)⟩

/-- The form `(let ((x (cons 1 2)) (z (car x)) (y x) (u (+ z 1)) (w (+ u (car y)))) w)`. -/
def renamedPair : LetForm where
  kind := .plain
  bindings := [
    ⟨"x",.pair 0 (.sym "cons") (.pair 1 (.int 1) (.pair 2 (.int 2) .nil))⟩,
    ⟨"z",.pair 3 (.sym "car") (.pair 4 (.sym "x") .nil)⟩,
    ⟨"y",.sym "x"⟩,
    ⟨"u",.pair 5 (.sym "+") (.pair 6 (.sym "z") (.pair 7 (.int 1) .nil))⟩,
    ⟨"w",.pair 8 (.sym "+") (.pair 9 (.sym "u") (.pair 10
      (.pair 11 (.sym "car") (.pair 12 (.sym "y") .nil)) .nil))⟩]
  body := .sym "w"

/-- The pair is released through its second name, after which neither name nor the part is mentioned. -/
theorem renamedPair_early :
    let a := ofForm renamedPair [] {}
    renamedPair.SeenWithin ({} : Options).analysisDepth ∧ a.earlyStatement? "y" = some 4 ∧
      a.ownership.root "y" = "x" ∧ a.ownership.projections "x" = ["z"] ∧ 4 < renamedPair.bodyIndex ∧
      renamedPair.MentionsAt "y" 4 ∧
      ∀ j > 4, ¬ renamedPair.MentionsAt "x" j ∧ ¬ renamedPair.MentionsAt "y" j ∧
        ¬ renamedPair.MentionsAt "z" j := by
  intro a
  have seen : renamedPair.SeenWithin ({} : Options).analysisDepth :=
    ⟨by decide +kernel,by decide +kernel⟩
  have early : a.earlyStatement? "y" = some 4 := by decide +kernel
  have root : a.ownership.root "y" = "x" := by decide +kernel
  have parts : a.ownership.projections "x" = ["z"] := by decide +kernel
  have whole : a.ownership.projections "y" = [] := by decide +kernel
  obtain ⟨before,⟨y,reads,here⟩,silent⟩ := early_after_mentions renamedPair [] {} seen early
  rcases reads with rfl | part
  · refine ⟨seen,early,root,parts,before,here,?_⟩
    intro j after
    refine ⟨fun mentions => ?_,fun mentions => ?_,fun mentions => ?_⟩
    · exact (silent j "x" after mentions "x" (.inr (.inl root.symm))).1 rfl
    · exact (silent j "y" after mentions "y" (.inl rfl)).1 rfl
    · exact (silent j "z" after mentions "x" (.inr (.inl root.symm))).2 (by simp [a,parts])
  · rw [whole] at part
    cases part

end Analysis

end StagedLisp
