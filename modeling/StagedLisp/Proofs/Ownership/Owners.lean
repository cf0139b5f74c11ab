import StagedLisp.Proofs.Release.Outer

/-! One owner for each storage. The names of a storage agree on its owner, so at most one of them gives it
back. Without assignments the owner is itself a name of the storage: an alias is listed only at the root
that it links to. -/
namespace StagedLisp.Ownership

variable {o : Ownership} {l : Liveness} {form : LetForm} {r n m : String}

/-- Of the names whose root is `r`, only `w` gives the storage back, all of them have it as their owner,
and it is used at least as long as the root and its declared aliases. -/
structure SoleOwner (o : Ownership) (names : List String) (r w : String) : Prop where
  declared : w ∈ names
  root : o.root w = r
  releases : o.elidesDecrement w = false
  only : ∀ n ∈ names, o.root n = r → o.elidesDecrement n = false → n = w
  owner : ∀ n ∈ names, o.root n = r → o.owner? n = some w
  latest : ∀ z, z = r ∨ z ∈ o.aliases r ∧ z ∈ names → isLater (o.releasePoint? z) (o.releasePoint? w) = false

theorem owner?_congr (same : o.root n = o.root m) : o.owner? n = o.owner? m := by
  rw [owner?_eq,owner?_eq,same]

theorem owner?_of_root (declared : (o.held r).declared = true) (root : o.root n = r) :
    o.owner? n = some (o.lastUsed r (o.aliases r)) := by
  rw [owner?_eq,root,if_pos declared]

/-- Two bindings with one root are not both to be given back. -/
theorem ofForm_released_once (first : n ∈ form.names) (second : m ∈ form.names)
    (same : (ofForm form l).root n = (ofForm form l).root m)
    (released : (ofForm form l).elidesDecrement n = false)
    (again : (ofForm form l).elidesDecrement m = false) : n = m := by
  have ownerN := ((ofForm_elides first).mp released).2
  have ownerM := ((ofForm_elides second).mp again).2
  rw [owner?_congr same,ownerM] at ownerN
  exact (Option.some.inj ownerN).symm

theorem ofForm_unassigned (l : Liveness) (unassigned : form.statements.flatMap assignments = []) :
    ofForm form l = declareAll l form.bindings := by
  rw [ofForm,unassigned]
  rfl

/-- A binding that is listed as an alias links to the name it is listed at, and is part of none. -/
theorem links_of_listed (distinct : form.names.Nodup)
    (listed : n ∈ (declareAll l form.bindings).aliases r) : n ∈ form.names ∧
      (declareAll l form.bindings).aliasOf? n = some r ∧
      (declareAll l form.bindings).projectionOf? n = none := by
  obtain ⟨i,b,found,rfl,root⟩ := (mem_aliases_declareAll l form.bindings).mp listed
  obtain ⟨linked,part⟩ := links_declareAll l distinct found
  refine ⟨List.mem_map_of_mem (List.mem_of_getElem? found),linked.trans root,part.trans ?_⟩
  obtain ⟨source,attached,whole⟩ := Option.bind_eq_some_iff.mp root
  rw [wholeFor?,attached,Option.bind_some]
  split at whole
  · cases whole
  · next kind => exact if_neg kind

/-- The name of a storage that is used last is a binding with the same root, and is part of no other. -/
theorem lastUsed_binding (distinct : form.names.Nodup) (declared : r ∈ form.names)
    (root : (declareAll l form.bindings).root r = r)
    (whole : (declareAll l form.bindings).projectionOf? r = none) {w : String}
    (last : (declareAll l form.bindings).lastUsed r ((declareAll l form.bindings).aliases r) = w) :
    w ∈ form.names ∧ (declareAll l form.bindings).root w = r ∧
      (declareAll l form.bindings).projectionOf? w = none := by
  have place := lastUsed_mem (declareAll l form.bindings) r ((declareAll l form.bindings).aliases r)
  rw [last] at place
  rcases place with rfl | ⟨listed,_⟩
  · exact ⟨declared,root,whole⟩
  · obtain ⟨member,linked,apart⟩ := links_of_listed distinct listed
    refine ⟨member,?_,apart⟩
    by_cases self : r = w
    · rw [← self,root]
    · rw [(declareAll_ranked l form.bindings).root_link ⟨linked,self⟩,root]

/-- Of the bindings with one root, at most one is to be given back. If nothing is assigned and the root is
a binding and no part of another, then exactly one is: the owner of them all. -/
theorem one_owner_per_storage (form : LetForm) (l : Liveness) (distinct : form.names.Nodup) :
    (form.statements.flatMap assignments = [] → ∀ r ∈ form.names, (ofForm form l).root r = r →
      (ofForm form l).projectionOf? r = none → ∃ w, SoleOwner (ofForm form l) form.names r w) ∧
    ∀ n ∈ form.names, ∀ m ∈ form.names, (ofForm form l).root n = (ofForm form l).root m →
      (ofForm form l).elidesDecrement n = false → (ofForm form l).elidesDecrement m = false →
      n = m := by
  constructor
  · intro unassigned r declared root whole
    have held := (ofForm_declared form l r).mpr declared
    generalize last : (ofForm form l).lastUsed r ((ofForm form l).aliases r) = w
    have binding : w ∈ form.names ∧ (ofForm form l).root w = r ∧
        (ofForm form l).projectionOf? w = none := by
      rw [ofForm_unassigned l unassigned] at root whole last ⊢
      exact lastUsed_binding distinct declared root whole last
    obtain ⟨member,rootW,wholeW⟩ := binding
    have owner (n : String) (rootN : (ofForm form l).root n = r) :
        (ofForm form l).owner? n = some w := by
      rw [owner?_of_root held rootN,last]
    have releases := (ofForm_elides member).mpr ⟨wholeW,owner w rootW⟩
    refine ⟨w,member,rootW,releases,?_,fun n _ => owner n,?_⟩
    · intro n listed rootN released
      exact ofForm_released_once listed member (rootN.trans rootW.symm) released releases
    · intro z name
      have listed : z = r ∨ z ∈ (ofForm form l).aliases r ∧
          ((ofForm form l).get? z).any Holding.declared := by
        refine name.imp_right fun listed => ⟨listed.1,?_⟩
        rw [declared_eq]
        exact (ofForm_declared form l z).mpr listed.2
      have latest := lastUsed_latest listed
      rw [last] at latest
      rw [Bool.eq_false_iff,ne_eq,isLater_iff]
      exact not_lt.mpr latest
  · intro n first m second same released again
    exact ofForm_released_once first second same released again

/-- `(let ((p (cons 1 2)) (q p) (s p)) (+ 1 q))` -/
def renamedForm : LetForm where
  kind := .plain
  bindings := [
    ⟨"p",.pair 2 (.sym "cons") (.pair 1 (.int 1) (.pair 0 (.int 2) .nil))⟩,
    ⟨"q",.sym "p"⟩,
    ⟨"s",.sym "p"⟩]
  body := .pair 5 (.sym "+") (.pair 4 (.int 1) (.pair 3 (.sym "q") .nil))

/-- The body uses the pair `p` as `q`, which gives it back for all three names. -/
theorem renamed_one_owner : renamedForm.names.Nodup ∧ renamedForm.statements.flatMap assignments = [] ∧
    ∃ w, SoleOwner (ofForm renamedForm (Liveness.ofForm renamedForm 100 100)) renamedForm.names "p" w ∧
      w = "q" := by
  have distinct : renamedForm.names.Nodup := by decide
  have unassigned : renamedForm.statements.flatMap assignments = [] := by decide
  have member : "q" ∈ renamedForm.names := by decide
  have root : (ofForm renamedForm (Liveness.ofForm renamedForm 100 100)).root "q" = "p" := by
    decide +kernel
  obtain ⟨w,owner⟩ := (one_owner_per_storage renamedForm (Liveness.ofForm renamedForm 100 100)
    distinct).1 unassigned "p" (by decide) (by decide +kernel) (by decide +kernel)
  exact ⟨distinct,unassigned,w,owner,(owner.only "q" member root (by decide +kernel)).symm⟩

end StagedLisp.Ownership
