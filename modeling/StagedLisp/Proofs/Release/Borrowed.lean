import StagedLisp.Proofs.Release.Outer

/-! Borrowed structure. The names of a value and the parts that are read from it are tracked to it, and
it is kept as long as they are used. Another name for a part is not tracked: it may be released on its
own, and after the value it belongs to. -/
namespace StagedLisp

open List Option

/-- The binding at a position leads to one that exposes nothing, each exposing an earlier one on the way;
and whether a part is taken on the way. -/
inductive LetForm.Leads (form : LetForm) (origin : String) : Nat → Bool → Prop
  | here {i b} (bound : form.bindings[i]? = some b) (named : b.name = origin)
      (new : exposed? b.init = none) : Leads form origin i false
  | through {i j b c part before} (bound : form.bindings[i]? = some b)
      (exposes : exposed? b.init = some (c.name,part)) (source : form.bindings[j]? = some c)
      (earlier : j < i) (leads : Leads form origin j before) : Leads form origin i (part || before)

/-- What a binding leads to is bound no later, and leads to itself. -/
theorem LetForm.Leads.origin_bound {form : LetForm} {origin : String} {i : Nat} {through : Bool}
    (leads : form.Leads origin i through) : ∃ m ≤ i, ∃ c, form.bindings[m]? = some c ∧
      c.name = origin ∧ form.Leads origin m false := by
  induction leads with
  | @here i b bound named new => exact ⟨i,le_rfl,b,bound,named,.here bound named new⟩
  | through _ _ _ earlier _ ih =>
    obtain ⟨m,before,found⟩ := ih
    exact ⟨m,before.trans earlier.le,found⟩

namespace Ownership

variable {form : LetForm} {l : Liveness} {i j n : Nat} {b c : Binding} {r x : String} {part through : Bool}

theorem links_take (l : Liveness) (distinct : form.names.Nodup) (bound : form.bindings[i]? = some b)
    (before : i < n) :
    (declareAll l (form.bindings.take n)).aliasOf? b.name = (declareAll l (form.bindings.take i)).rootFor? b ∧
    (declareAll l (form.bindings.take n)).projectionOf? b.name =
      (declareAll l (form.bindings.take i)).wholeFor? b := by
  have fewer : ((form.bindings.take n).map Binding.name).Nodup := distinct.sublist ((take_sublist n _).map _)
  have found : (form.bindings.take n)[i]? = some b := by rwa [getElem?_take_of_lt before]
  have links := links_declareAll l fewer found
  rwa [take_take,Nat.min_eq_left before.le] at links

/-- The name goes by `r`, or is another name for a part of it. -/
structure LeadsTo (o : Ownership) (r x : String) (through : Bool) : Prop where
  root : through = false → o.root x = r
  part : through = true → o.projectionOf? (o.root x) = some r
  whole : o.whole x = r

theorem source_of_exposes (distinct : form.names.Nodup) (bound : form.bindings[i]? = some b)
    (exposes : exposed? b.init = some (c.name,part)) (source : form.bindings[j]? = some c)
    (earlier : j < i) : b.source? = some (c.name,part) := by
  have other : c.name ≠ b.name := fun same =>
    earlier.ne (LetForm.position_unique distinct source bound same)
  simp [Binding.source?,exposes,other]

theorem root_take (l : Liveness) (distinct : form.names.Nodup) (declared : x ∈ form.names.take i) (later : i ≤ n)
    (final : (declareAll l (form.bindings.take i)).Final x) :
    (declareAll l (form.bindings.take n)).Final x ∧
    (declareAll l (form.bindings.take n)).projectionOf? x =
      (declareAll l (form.bindings.take i)).projectionOf? x := by
  obtain ⟨j,before,c,found,rfl⟩ := LetForm.binding_of_name declared
  obtain ⟨aliasI,partI⟩ := links_take l distinct found before
  obtain ⟨aliasN,partN⟩ := links_take l distinct found (before.trans_le later)
  refine ⟨?_,partN.trans partI.symm⟩
  intro y link
  exact final y ⟨aliasI.trans (aliasN.symm.trans link.1),link.2⟩

/-- What a binding leads to is what its links come to, however many bindings follow. -/
theorem leadsTo_take (l : Liveness) (distinct : form.names.Nodup) (leads : form.Leads r i through)
    (bound : form.bindings[i]? = some b) (before : i < n) :
    LeadsTo (declareAll l (form.bindings.take n)) r b.name through := by
  induction leads generalizing b n with
  | @here i c found named new =>
    obtain rfl : c = b := some.inj (found.symm.trans bound)
    subst named
    have none : c.source? = none := by simp [Binding.source?,new]
    obtain ⟨aliasOf,partOf⟩ := links_take l distinct found before
    rw [rootFor?,none] at aliasOf
    rw [wholeFor?,none] at partOf
    have final : (declareAll l (form.bindings.take n)).Final c.name := by
      intro y link
      rw [link.1] at aliasOf
      cases aliasOf
    have root := root_of_final final
    exact ⟨fun _ => root,by simp,by simp [whole,root,partOf]⟩
  | @through i j d c part through found exposes source earlier leads ih =>
    obtain rfl : d = b := some.inj (found.symm.trans bound)
    have attached := source_of_exposes distinct found exposes source earlier
    have former := ih source earlier
    have ranked := declareAll_ranked l (form.bindings.take n)
    obtain ⟨aliasOf,partOf⟩ := links_take l distinct found before
    cases part with
    | true =>
      rw [rootFor?,attached] at aliasOf
      rw [wholeFor?,attached] at partOf
      have final : (declareAll l (form.bindings.take n)).Final d.name := by
        intro y link
        rw [link.1] at aliasOf
        cases aliasOf
      have root := root_of_final final
      have part : (declareAll l (form.bindings.take n)).projectionOf? d.name = some r := by
        simpa [former.whole] using partOf
      exact ⟨by simp,fun _ => by rw [root,part],by simp [whole,root,part]⟩
    | false =>
      have rooted : (declareAll l (form.bindings.take n)).aliasOf? d.name =
          some ((declareAll l (form.bindings.take i)).root c.name) := by
        simpa [rootFor?,attached] using aliasOf
      have declared : (declareAll l (form.bindings.take i)).root c.name ∈ form.names.take i := by
        cases through with
        | false =>
          obtain ⟨m,early,_,origin,rfl,_⟩ := leads.origin_bound
          rw [former.root rfl]
          exact LetForm.name_mem_take origin (by omega)
        | true =>
          by_contra outside
          have none := (no_links_declareAll l (by rwa [map_take])).2
          rw [former.part rfl] at none
          cases none
      obtain ⟨final,same⟩ := root_take l distinct declared before.le ((declareAll_ranked l _).final c.name)
      have other : (declareAll l (form.bindings.take i)).root c.name ≠ d.name := fun equal =>
        LetForm.name_new found distinct (equal ▸ declared)
      have root := (ranked.root_link ⟨rooted,other⟩).trans (root_of_final final)
      refine ⟨fun none => root.trans (former.root none),fun some => ?_,?_⟩
      · rw [root,same]
        exact former.part some
      · rw [whole,root,same]
        exact former.whole

theorem leadsTo_declareAll (l : Liveness) (distinct : form.names.Nodup)
    (leads : form.Leads r i through) (bound : form.bindings[i]? = some b) :
    LeadsTo (declareAll l form.bindings) r b.name through := by
  have inside := lt_of_getElem? bound
  have all := leadsTo_take l distinct leads bound inside
  rwa [take_length] at all

/-- Other names and parts are tracked to what they lead to; other names for parts may not be. -/
theorem tracks_leads (l : Liveness) (distinct : form.names.Nodup) (leads : form.Leads r i through)
    (bound : form.bindings[i]? = some b)
    (direct : through = false ∨ ∀ s, exposed? b.init ≠ some (s,false)) :
    (declareAll l form.bindings).tracks r b.name = true := by
  obtain ⟨_,_,origin,found,rfl,self⟩ := leads.origin_bound
  have root := (leadsTo_declareAll l distinct self found).root rfl
  have declared {m : Nat} {c : Binding} (there : form.bindings[m]? = some c) :
      ((declareAll l form.bindings).held c.name).declared = true :=
    (declared_declareAll l form.bindings c.name).mpr (mem_map_of_mem (mem_of_getElem? there))
  rw [tracks_iff,root]
  cases leads with
  | @here _ c there named _ =>
    obtain rfl : c = b := some.inj (there.symm.trans bound)
    exact ⟨c.name,.inl named,declared there,.inl rfl⟩
  | @through _ j d c part before there exposes source earlier leads =>
    obtain rfl : d = b := some.inj (there.symm.trans bound)
    have attached := source_of_exposes distinct there exposes source earlier
    have former := leadsTo_take l distinct leads source earlier
    cases part with
    | true =>
      refine ⟨origin.name,.inl rfl,declared found,.inr ?_⟩
      refine (mem_projections_declareAll l form.bindings).mpr ⟨i,d,there,rfl,?_⟩
      simp [wholeFor?,attached,former.whole]
    | false =>
      have plain : before = false := by simpa [exposes] using direct
      refine ⟨d.name,.inr ?_,declared there,.inl rfl⟩
      refine (mem_aliases_declareAll l form.bindings).mpr ⟨i,d,there,rfl,?_⟩
      simp [rootFor?,attached,former.root plain]

/-- A binding that leads to another one through a part is itself a part, unless it is another name. -/
theorem part_leads (l : Liveness) (distinct : form.names.Nodup) (leads : form.Leads r i true)
    (bound : form.bindings[i]? = some b) :
    (declareAll l form.bindings).projectionOf? b.name = none ↔ ∃ s, exposed? b.init = some (s,false) := by
  rw [(links_declareAll l distinct bound).2]
  generalize flag : true = through at leads
  cases leads with
  | here => cases flag
  | @through _ j d c part before there exposes source earlier =>
    obtain rfl : d = b := some.inj (there.symm.trans bound)
    rw [wholeFor?,source_of_exposes distinct there exposes source earlier,exposes]
    cases part <;> simp

end Ownership

/-- The storage is given up before the body, after this statement: it is released, or its cell goes to
another binding. -/
def BindingPlan.GivenUp (a : Analysis) (p : BindingPlan) (after : Nat) : Prop :=
  (∃ routine, p.release = .early after routine) ∨ p.release.isDonated = true ∧ a.earlyStatement? p.name = some after

theorem Plans.givenUp_point {form : LetForm} {values : List Value} {a : Analysis} {options : Options}
    {p : BindingPlan} {k : Nat} (planned : p ∈ ofForm form values a options)
    (given : p.GivenUp a k) : a.ownership.elidesDecrement p.name = false ∧
      a.ownership.releasePoint? p.name = some k := by
  have both : a.ownership.elidesDecrement p.name = false ∧
      a.ownership.releasePoint? p.name = some k ∧ k < a.names.length := by
    rcases given with ⟨routine,early⟩ | ⟨_,early⟩
    · rcases ofForm_follows p planned with donated | borrowed | same
      · rw [early] at donated
        cases donated
      · rw [early] at borrowed
        cases borrowed
      · exact releaseOf_early (same.symm.trans early)
    · exact earlyStatement_eq early
  exact ⟨both.1,both.2.1⟩

/-- The `j`-th statement comes after the `k`-th and mentions the binding at position `i`, which leads to
`origin`. -/
structure LetForm.MentionedAfter (form : LetForm) (origin : String) (k j i : Nat) (b : Binding)
    (through : Bool) : Prop where
  later : k < j
  inside : j ≤ form.bodyIndex
  bound : form.bindings[i]? = some b
  visible : i < j
  leads : form.Leads origin i through
  mentioned : Mentions (form.statement j) b.name

/-- A binding that leads to `origin` through a part is released exactly if it is another name for a part
and the owner of its storage, and has a value that is not captured. If `origin` is given up before the
body, then what leads to it is not mentioned later on exactly if no other name for a part is, and no name
that stands too deep to be seen. -/
theorem Plans.borrowed_iff {form : LetForm} (known : Table Shape) (values : List Value)
    (origin : String) (kind : form.kind = .plain) (distinct : form.names.Nodup)
    (unassigned : form.statements.flatMap assignments = []) :
    (∀ i b p, form.bindings[i]? = some b → form.Leads origin i true →
      p ∈ ofForm form values (Analysis.ofForm form known {}) {} → p.name = b.name →
      (p.release.isOwn = true ↔ p.init.isSome = true ∧
        ((Analysis.ofForm form known {}).usage.usage? b.name).any Usage.captured = false ∧
        (Analysis.ofForm form known {}).partCaptured b.name = false ∧
        (∃ s, exposed? b.init = some (s,false)) ∧
        (Analysis.ofForm form known {}).ownership.owner? b.name = some b.name)) ∧
    ∀ p k, p ∈ ofForm form values (Analysis.ofForm form known {}) {} → p.name = origin →
      p.GivenUp (Analysis.ofForm form known {}) k →
      ((∀ j i b through, ¬ form.MentionedAfter origin k j i b through) ↔
        ∀ j i b through, through = true ∧ (∃ s, exposed? b.init = some (s,false)) ∨
            b.name ∉ freeNames ({} : Options).analysisDepth [] [] (form.statement j) →
          ¬ form.MentionedAfter origin k j i b through) := by
  have declared (l : Liveness) : Ownership.ofForm form l = Ownership.declareAll l form.bindings := by
    rw [Ownership.ofForm,unassigned]
    rfl
  refine ⟨?_,?_⟩
  · intro i b p bound leads planned named
    have member : b.name ∈ form.names := mem_map_of_mem (mem_of_getElem? bound)
    rw [ofForm_isOwn distinct p planned,named,Analysis.ofForm_ownership,
      Ownership.ofForm_elides member,declared,Ownership.part_leads _ distinct leads bound]
  · intro p k planned named given
    subst named
    obtain ⟨own,point⟩ := givenUp_point planned given
    refine ⟨fun none j i b through _ => none j i b through,?_⟩
    intro overlooked j i b through mention
    by_cases seen : b.name ∈ freeNames ({} : Options).analysisDepth [] [] (form.statement j)
    · have direct : through = false ∨ ∀ s, exposed? b.init ≠ some (s,false) := by
        by_contra indirect
        rw [not_or,not_forall_not] at indirect
        exact overlooked j i b through (.inl ⟨by simpa using indirect.1,indirect.2⟩) mention
      have tracked : (Analysis.ofForm form known {}).ownership.tracks p.name b.name = true := by
        rw [Analysis.ofForm_ownership,declared]
        exact Ownership.tracks_leads _ distinct mention.leads mention.bound direct
      have member : p.name ∈ form.names := by
        obtain ⟨_,_,_,found,named,_⟩ := mention.leads.origin_bound
        exact named ▸ mem_map_of_mem (mem_of_getElem? found)
      have needed := Analysis.needed_until_mention kind (by decide) (by decide) own member tracked
        mention.inside (LetForm.name_mem_take mention.bound mention.visible) seen
      have later := mention.later
      rw [point,Ownership.rank] at needed
      omega
    · exact overlooked j i b through (.inr seen) mention

/-- `(let ((r (cons (cons 1 2) 3)) (p (car r)) (q p)) (+ 1 q))` -/
def partForm : LetForm where
  kind := .plain
  bindings := [
    ⟨"r",.pair 5 (.sym "cons") (.pair 4 (.pair 3 (.sym "cons") (.pair 2 (.int 1)
      (.pair 1 (.int 2) .nil))) (.pair 0 (.int 3) .nil))⟩,
    ⟨"p",.pair 7 (.sym "car") (.pair 6 (.sym "r") .nil)⟩,
    ⟨"q",.sym "p"⟩]
  body := .pair 10 (.sym "+") (.pair 9 (.int 1) (.pair 8 (.sym "q") .nil))

def partValues : List Value :=
  [.code (.text "mk_pair(mk_pair(1, 2), 3)"),.code (.text "car(r)"),.code (.text "p")]

theorem partForm_leads : partForm.Leads "r" 2 true := by
  have whole : partForm.Leads "r" 0 false := .here rfl rfl rfl
  have part : partForm.Leads "r" 1 (true || false) :=
    .through (c := partForm.bindings[0]) rfl rfl rfl (by decide) whole
  have again : partForm.Leads "r" 2 (false || (true || false)) :=
    .through (c := partForm.bindings[1]) rfl rfl rfl (by decide) part
  exact again

theorem partForm_plans : (Plans.ofForm partForm partValues (Analysis.ofForm partForm [] {}) {}).map
      (fun p : BindingPlan => (p.name,p.release)) =
        [("r",.early 2 .freeTree),("p",.projected "r"),("q",.atEnd .freeTree)] := by decide +kernel

theorem partForm_released : (∃ p ∈ Plans.ofForm partForm partValues (Analysis.ofForm partForm [] {}) {},
      p.name = "q" ∧ p.release = .atEnd .freeTree) ∧
    ∃ p ∈ Plans.ofForm partForm partValues (Analysis.ofForm partForm [] {}) {},
      p.name = "r" ∧ p.release = .early 2 .freeTree :=
  ⟨Plans.planned_of_listed (by simp [partForm_plans]),Plans.planned_of_listed (by simp [partForm_plans])⟩

/-- Another name for a part of `r` is freed on its own, and is used by the body although `r` is freed
before. -/
theorem Plans.part_freed_twice : partForm.kind = .plain ∧ partForm.names.Nodup ∧
    partForm.statements.flatMap assignments = [] ∧ partForm.Leads "r" 2 true ∧
    (∃ p ∈ ofForm partForm partValues (Analysis.ofForm partForm [] {}) {},
      p.name = "q" ∧ p.release = .atEnd .freeTree) ∧
    (∃ p ∈ ofForm partForm partValues (Analysis.ofForm partForm [] {}) {},
      p.name = "r" ∧ p.release = .early 2 .freeTree) ∧
    partForm.MentionedAfter "r" 2 3 2 ⟨"q",.sym "p"⟩ true := by
  refine ⟨rfl,by decide,by decide,partForm_leads,partForm_released.1,partForm_released.2,?_⟩
  exact ⟨by decide,by decide,rfl,by decide,partForm_leads,2,by decide⟩

theorem Plans.part_borrowed_iff : partForm.Leads "r" 2 true ∧
    (∃ p ∈ ofForm partForm partValues (Analysis.ofForm partForm [] {}) {},
      p.name = "q" ∧ p.release.isOwn = true ∧ p.init.isSome = true ∧
      (Analysis.ofForm partForm [] {}).ownership.owner? "q" = some "q") ∧
    ∃ p ∈ ofForm partForm partValues (Analysis.ofForm partForm [] {}) {},
      p.name = "r" ∧ p.GivenUp (Analysis.ofForm partForm [] {}) 2 ∧
      ((∀ j i b through, ¬ partForm.MentionedAfter "r" 2 j i b through) ↔
        ∀ j i b through, through = true ∧ (∃ s, exposed? b.init = some (s,false)) ∨
            b.name ∉ freeNames ({} : Options).analysisDepth [] [] (partForm.statement j) →
          ¬ partForm.MentionedAfter "r" 2 j i b through) := by
  have distinct : partForm.names.Nodup := by decide
  obtain ⟨parts,wholes⟩ := borrowed_iff [] partValues "r" rfl distinct (by decide)
  refine ⟨partForm_leads,?_,?_⟩
  · obtain ⟨p,listed,named,released⟩ := partForm_released.1
    have own : p.release.isOwn = true := by rw [released]; rfl
    obtain ⟨built,_,_,_,owns⟩ := (parts 2 ⟨"q",.sym "p"⟩ p rfl partForm_leads listed named).mp own
    exact ⟨p,listed,named,own,built,owns⟩
  · obtain ⟨p,listed,named,released⟩ := partForm_released.2
    have given : p.GivenUp (Analysis.ofForm partForm [] {}) 2 := .inl ⟨.freeTree,released⟩
    exact ⟨p,listed,named,given,wholes p 2 listed named given⟩

end StagedLisp
