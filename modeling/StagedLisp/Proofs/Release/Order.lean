import StagedLisp.Proofs.Release.Premature

/-! The order of releases. A value is not given back, and its cell not given to another binding,
before it is declared, unless its name hides one that an earlier initialiser of the form reads. -/
namespace StagedLisp

open List Analysis LetForm Option Ownership Table Liveness

/-- A binding hides a name that an earlier initialiser of the form reads. -/
def LetForm.HidesLate (form : LetForm) (x : String) : Prop :=
  ∃ (i j : Nat) (b earlier : Binding), j < i ∧ form.bindings[i]? = some b ∧ b.name = x ∧
    form.bindings[j]? = some earlier ∧ (exposed? earlier.init).map Prod.fst = some x

variable {depth : Nat} {form : LetForm}

theorem Liveness.lastStatement_visible {cap m : Nat} {x : String}
    (last : (ofForm form cap depth).lastStatement? x = some m) : ∃ j ≤ m, x ∈ form.visibleIn j := by
  have bound {d : Flow.Death} (listed : d ∈ (ofForm form cap depth).deaths) (named : d.name = x) :
      d.statement ≤ m := by
    refine (max?_eq_some_iff.mp last).2 _ (mem_map_of_mem ?_)
    exact mem_filter.mpr ⟨listed,beq_iff_eq.mpr named⟩
  have positive := positive_of_lastStatement last
  obtain ⟨j,_,inside,visible,node,member,uses⟩ := use_of_lastStatement positive last
  obtain ⟨n,node',found,same,rfl⟩ := Flow.ofForm_node_of_mem inside member
  have alive : x ∈ (ofForm form cap depth).solution.live.into n :=
    (mem_into positive found).mpr (.inl (same ▸ uses))
  obtain ⟨d,listed,named,later⟩ := dies_later positive found alive
  exact ⟨node'.statement,later.trans (bound listed named),visible⟩

namespace Ownership

variable {form : LetForm} {l : Liveness} {x y : String}

theorem ofForm_releasePoint {m : Nat} (declared : x ∈ form.names)
    (point : (ofForm form l).releasePoint? x = some m) :
    ∃ y, (y = x ∨ y ∈ (ofForm form l).projections x) ∧ l.lastStatement? y = some m := by
  obtain ⟨h,held,_,lastUse⟩ := ofForm_records form l declared
  simp only [releasePoint?,held] at point
  rcases mem_append.mp (max?_mem point) with part | own
  · obtain ⟨y,listed,used⟩ := mem_filterMap.mp part
    have part : y ∈ (ofForm form l).projections x := by
      rw [projections,held]
      exact listed
    obtain ⟨j,c,bound,rfl,_⟩ := ofForm_part part
    obtain ⟨h',held',_,lastUse'⟩ := ofForm_records form l (mem_map_of_mem (mem_of_getElem? bound))
    rw [held',bind_some,lastUse'] at used
    exact ⟨c.name,.inr part,used⟩
  · rw [lastUse] at own
    exact ⟨x,.inl rfl,mem_toList.mp own⟩

end Ownership

theorem Analysis.needed_after_declaration {cap i m : Nat} {b : Binding}
    (plain : form.kind = .plain) (distinct : form.names.Nodup)
    (found : form.bindings[i]? = some b) (apart : ¬ form.HidesLate b.name)
    (needed : (Ownership.ofForm form (Liveness.ofForm form cap depth)).releasePoint? b.name = some m) : i < m := by
  -- Whatever is live last was bound before.
  have later {j : Nat} {c : Binding} (bound : form.bindings[j]? = some c)
      (last : (Liveness.ofForm form cap depth).lastStatement? c.name = some m) : j < m := by
    obtain ⟨k,before,visible⟩ := lastStatement_visible last
    rw [visibleIn,plain] at visible
    by_contra beyond
    exact name_new bound distinct (take_subset_take_left _ (by omega) visible)
  have declared : b.name ∈ form.names := mem_map_of_mem (mem_of_getElem? found)
  obtain ⟨y,rfl | part,last⟩ := ofForm_releasePoint declared needed
  · exact later found last
  · obtain ⟨j,c,bound,rfl,k,inside,earlier,there,exposed⟩ := ofForm_part part
    refine Nat.lt_of_le_of_lt ?_ (later bound last)
    by_contra before
    exact apart ⟨i,k,b,earlier,by omega,found,rfl,there,exposed⟩

theorem Analysis.mem_pairs {known : Table Shape} {options : Options} {pair : ReusePair}
    (member : pair ∈ (ofForm form known options).reuse.pairs) :
    ∃ l early, pair ∈ (Reuse.ofForm form l early).pairs ∧ ∀ x after, early x = some after →
      (ofForm form known options).ownership.releasePoint? x = some after := by
  rw [ofForm_ownership]
  unfold ofForm at member
  dsimp only at member
  split at member
  · exact ⟨_,_,member,fun x after early => (Plans.earlyStatement_eq early).2.1⟩
  · cases member

namespace Plans

variable {form : LetForm} {values : List Value} {known : Table Shape} {options : Options}

theorem ofForm_reuses {a : Analysis} {p : BindingPlan} {donor : String}
    (member : p ∈ ofForm form values a options) (reuses : p.reuses = some donor) :
    ∃ pair ∈ a.reuse.pairs, pair.freed = donor ∧ pair.alloc = p.name := by
  revert donor
  refine ofForm_all (P := fun p => ∀ {donor}, p.reuses = some donor →
    ∃ pair ∈ a.reuse.pairs, pair.freed = donor ∧ pair.alloc = p.name) ?_ ?_ ?_ p member
  · intro b _ value donor reuses
    cases reuses
  · intro pair listed init p known _ donor reuses
    by_cases receives : p.name = pair.alloc
    · simp only [handOver,receives,if_true,some.injEq] at reuses
      exact ⟨pair,listed,reuses,receives.symm⟩
    · simp only [handOver,receives,if_false] at reuses
      exact known reuses
  · exact fun _ _ _ _ known => known

section Order

variable (distinct : form.names.Nodup) (full : values.length = form.bindings.length)

include distinct full

variable {i : Nat} {p : BindingPlan}

theorem binding_at (found : (ofForm form values (Analysis.ofForm form known options) options)[i]? = some p) :
    ∃ b, form.bindings[i]? = some b ∧ b.name = p.name := by
  have named := ((ofForm_settled distinct full).name_at found).1
  rw [LetForm.names,getElem?_map] at named
  exact map_eq_some_iff.mp named

theorem released_after_declaration {after : Nat} {routine : Routine} (plain : form.kind = .plain)
    (found : (ofForm form values (Analysis.ofForm form known options) options)[i]? = some p)
    (early : p.release = .early after routine) (apart : ¬ form.HidesLate p.name) : i < after := by
  obtain ⟨b,bound,same⟩ := binding_at distinct full found
  rcases ofForm_follows p (mem_of_getElem? found) with donated | borrowed | follows
  · rw [early] at donated
    cases donated
  · cases early.symm.trans borrowed
  · have needed := (releaseOf_early (follows.symm.trans early)).2.1
    rw [ofForm_ownership,← same] at needed
    exact needed_after_declaration plain distinct bound (same ▸ apart) needed

/-- The cell that a plan takes over is that of a binding with a value, and of an earlier one. -/
theorem taken_after_declaration {donor : String}
    (found : (ofForm form values (Analysis.ofForm form known options) options)[i]? = some p)
    (reuses : p.reuses = some donor) :
    ∃ (j : Nat) (q : BindingPlan), (ofForm form values (Analysis.ofForm form known options) options)[j]? = some q ∧
      q.name = donor ∧ q.init.isSome ∧ (form.kind = .plain → ¬ form.HidesLate donor → j < i) := by
  obtain ⟨b,bound,named⟩ := binding_at distinct full found
  obtain ⟨pair,listed,rfl,alloc⟩ := ofForm_reuses (mem_of_getElem? found) reuses
  obtain ⟨_,_,listed,needs⟩ := mem_pairs listed
  obtain ⟨free,frees,site,sites,accepted,rfl⟩ := Reuse.mem_pairUp listed
  have before := (Reuse.accepts_iff.mp accepted).1
  have early := (Reuse.mem_freesOf.mp frees).1
  obtain ⟨b',bound',site',_⟩ := Reuse.mem_sitesOf.mp sites
  obtain ⟨j,there⟩ := mem_iff_getElem?.mp (Reuse.free_named frees)
  have settled : Settled form values _ _ (ofForm form values (Analysis.ofForm form known options) options) :=
    ofForm_settled distinct full
  obtain ⟨q,here,same,_⟩ := settled.plan_at there
  refine ⟨j,q,here,same,?_,fun plain apart => ?_⟩
  · -- A plan without a value gives no cell.
    rw [isSome_iff_ne_none]
    intro absent
    have none := settled.given q (mem_of_getElem? here)
    rw [settled.absent q (mem_of_getElem? here) absent] at none
    refine countP_eq_zero.mp none p (mem_of_getElem? found) ?_
    rw [reuses,same]
    exact beq_self_eq_true _
  · have position : site.statement = i := by
      have both : form.names[site.statement]? = form.names[i]? := by
        rw [name_at bound',name_at bound,site',named,← alloc]
      have inside := lt_of_getElem? (name_at bound')
      exact (getElem?_inj inside distinct).mp both
    rw [LetForm.names,getElem?_map] at there
    obtain ⟨c,declared,name⟩ := map_eq_some_iff.mp there
    have needed := needs _ _ early
    rw [ofForm_ownership,← name] at needed
    have later := needed_after_declaration plain distinct declared (by rwa [name]) needed
    omega

end Order

end Plans

end StagedLisp
