import Mathlib.Data.List.Nodup
import Mathlib.Logic.Equiv.Basic
import StagedLisp.Reuse

/-! Cells that change hands. Each pair of the reuse analysis is safe, donors and receivers are paired once,
and no way to pair them up gives more pairs. Giving each cell to the first site that can take it over is as
good as any choice: whoever could use that site can use a later one just as well. -/
namespace StagedLisp.Reuse

open List CellEvent ReusePair

section Sites

theorem sites_names (bindings : List Binding) (start : Nat) : (((bindings.zipIdx start).filterMap fun (b,i) =>
      (allocationSize? b.init).map fun size => CellEvent.mk b.name size i).map
        name).Sublist (bindings.map Binding.name) := by
  induction bindings generalizing start with
  | nil => simp
  | cons b bindings ih =>
    rw [zipIdx_cons,filterMap_cons]
    cases size : allocationSize? b.init with
    | none => simpa [size] using (ih (start + 1)).cons b.name
    | some _ => simpa [size] using ih (start + 1)

theorem sitesOf_names (form : LetForm) : ((sitesOf form).map name).Sublist form.names :=
  sites_names form.bindings 0

variable {form : LetForm} {sites : List CellEvent} {early : String → Option Nat} {free site : CellEvent}

theorem mem_sitesOf : site ∈ sitesOf form ↔ ∃ b, form.bindings[site.statement]? = some b ∧
    b.name = site.name ∧ allocationSize? b.init = some site.size := by
  constructor
  · intro member
    obtain ⟨⟨b,i⟩,listed,sized⟩ := mem_filterMap.mp member
    obtain ⟨_,size,rfl⟩ := Option.map_eq_some_iff.mp sized
    exact ⟨b,mem_zipIdx_iff_getElem?.mp listed,rfl,size⟩
  · rintro ⟨b,found,named,size⟩
    refine mem_filterMap.mpr ⟨(b,site.statement),mem_zipIdx_iff_getElem?.mpr found,?_⟩
    simp [size,named]

theorem sitesOf_ordered (form : LetForm) : (sitesOf form).Pairwise fun a b => a.statement < b.statement := by
  have indexed : form.bindings.zipIdx.Pairwise fun a b => a.2 < b.2 := by
    rw [← pairwise_map (f := Prod.snd) (R := (· < ·)),zipIdx_map_snd]
    exact pairwise_lt_range'
  refine indexed.filterMap _ fun a b before site first site' second => ?_
  obtain ⟨_,_,rfl⟩ := Option.map_eq_some_iff.mp first
  obtain ⟨_,_,rfl⟩ := Option.map_eq_some_iff.mp second
  exact before

theorem mem_freesOf : free ∈ freesOf sites early ↔ early free.name = some free.statement ∧
    ∃ site ∈ sites, site.name = free.name ∧ site.size = free.size := by
  rw [freesOf,mem_mergeSort,mem_filterMap]
  constructor
  · rintro ⟨site,listed,chosen⟩
    obtain ⟨after,early,rfl⟩ := Option.map_eq_some_iff.mp chosen
    exact ⟨early,site,listed,rfl,rfl⟩
  · rintro ⟨after,site,listed,named,sized⟩
    refine ⟨site,listed,?_⟩
    rw [named,after,Option.map_some,sized]

theorem free_named (freed : free ∈ freesOf (sitesOf form) early) : free.name ∈ form.names := by
  obtain ⟨_,site,listed,named,_⟩ := mem_freesOf.mp freed
  exact (sitesOf_names form).subset (named ▸ mem_map_of_mem listed)

theorem freesOf_names (distinct : (sites.map name).Nodup) : ((freesOf sites early).map name).Nodup := by
  have chosen : ((sites.filterMap fun site => (early site.name).map fun line =>
      { site with statement := line }).map name).Sublist (sites.map name) := by
    clear distinct
    induction sites with
    | nil => exact .slnil
    | cons site sites ih =>
      rw [filterMap_cons]
      cases after : early site.name with
      | none => exact ih.cons site.name
      | some line => exact ih.cons_cons site.name
  exact ((mergeSort_perm _ _).map _).nodup_iff.mpr (distinct.sublist chosen)

end Sites

section Pairs

variable {l : Liveness} {frees sites : List CellEvent}

theorem accepts_iff {free site : CellEvent} : accepts l free site = true ↔
    free.statement < site.statement ∧ site.size = free.size ∧
      ∀ last, l.lastStatement? free.name = some last → last ≤ free.statement := by
  simp [accepts,and_assoc,Option.all_eq_true]

theorem mem_pairUp {pair : ReusePair} (member : pair ∈ pairUp l frees sites) :
    ∃ free ∈ frees, ∃ site ∈ sites, accepts l free site = true ∧ pair = ⟨free.name,site.name,site.size⟩ := by
  induction frees generalizing sites with
  | nil => cases member
  | cons free frees ih =>
    rw [pairUp] at member
    split at member
    · obtain ⟨other,listed,rest⟩ := ih member
      exact ⟨other,mem_cons_of_mem _ listed,rest⟩
    · next site found =>
      rcases mem_cons.mp member with rfl | later
      · exact ⟨free,mem_cons_self,site,mem_of_find?_eq_some found,find?_some found,rfl⟩
      · obtain ⟨other,listed,site',left,rest⟩ := ih later
        exact ⟨other,mem_cons_of_mem _ listed,site',mem_of_mem_erase left,rest⟩

theorem pairUp_freed (l : Liveness) (frees sites : List CellEvent) :
    ((pairUp l frees sites).map freed).Sublist (frees.map name) := by
  induction frees generalizing sites with
  | nil => exact .slnil
  | cons free frees ih =>
    rw [pairUp]
    split
    · exact (ih sites).cons free.name
    · exact (ih _).cons_cons free.name

theorem erase_names {site : CellEvent} (distinct : (sites.map name).Nodup) (member : site ∈ sites) :
    site.name ∉ (sites.erase site).map name := by
  intro again
  obtain ⟨other,left,same⟩ := mem_map.mp again
  obtain ⟨different,listed⟩ := (List.Nodup.of_map _ distinct).mem_erase_iff.mp left
  exact different (inj_on_of_nodup_map distinct listed member same)

theorem pairUp_allocs (l : Liveness) (frees sites : List CellEvent) (distinct : (sites.map name).Nodup) :
    (∀ pair ∈ pairUp l frees sites, pair.alloc ∈ sites.map name) ∧ ((pairUp l frees sites).map alloc).Nodup := by
  induction frees generalizing sites with
  | nil => simp [pairUp]
  | cons free frees ih =>
    rw [pairUp]
    split
    · exact ih sites distinct
    · next site found =>
      have member := mem_of_find?_eq_some found
      have fewer : ((sites.erase site).map name).Sublist (sites.map name) := erase_sublist.map _
      obtain ⟨among,once⟩ := ih (sites.erase site) (distinct.sublist fewer)
      constructor
      · intro pair listed
        rcases mem_cons.mp listed with rfl | listed
        · exact mem_map_of_mem member
        · exact fewer.subset (among pair listed)
      · rw [map_cons,nodup_cons]
        refine ⟨?_,once⟩
        intro again
        obtain ⟨pair,listed,same⟩ := mem_map.mp again
        have allocated := among pair listed
        rw [same] at allocated
        exact erase_names distinct member allocated

end Pairs

/-- Cells given to sites that can take them over, each cell and each site once. -/
structure Assignment (l : Liveness) (frees sites : List CellEvent)
    (given : List (CellEvent × CellEvent)) : Prop where
  accepted : ∀ p ∈ given, p.1 ∈ frees ∧ p.2 ∈ sites ∧ accepts l p.1 p.2 = true
  cells : (given.map Prod.fst).Nodup
  sites : (given.map Prod.snd).Nodup

namespace Assignment

variable {l : Liveness} {frees sites : List CellEvent} {given : List (CellEvent × CellEvent)}
  {free first : CellEvent}

section

variable (assignment : Assignment l frees sites given)

include assignment

variable {p q : CellEvent × CellEvent}

theorem cell_unique (left : p ∈ given) (right : q ∈ given) (same : p.1 = q.1) : p = q :=
  inj_on_of_nodup_map assignment.cells left right same

theorem site_unique (left : p ∈ given) (right : q ∈ given) (same : p.2 = q.2) : p = q :=
  inj_on_of_nodup_map assignment.sites left right same

theorem sublist {fewer : List (CellEvent × CellEvent)} (part : fewer.Sublist given) :
    Assignment l frees sites fewer where
  accepted p member := assignment.accepted p (part.subset member)
  cells := assignment.cells.sublist (part.map _)
  sites := assignment.sites.sublist (part.map _)

end

theorem narrow (assignment : Assignment l (free :: frees) sites given)
    (unused : ∀ p ∈ given, p.1 ≠ free) (untaken : ∀ p ∈ given, p.2 ≠ first) :
    Assignment l frees (sites.erase first) given where
  accepted p member := by
    obtain ⟨cell,site,accepts⟩ := assignment.accepted p member
    exact ⟨(mem_cons.mp cell).resolve_left (unused p member),(mem_erase_of_ne (untaken p member)).mpr site,accepts⟩
  cells := assignment.cells
  sites := assignment.sites

/-- If a cell is given to some site, it can be given to another one, whose cell then goes to that site. -/
theorem exchange (assignment : Assignment l (free :: frees) sites given) {site : CellEvent}
    (takes : (free,site) ∈ given)
    (later : ∀ other, accepts l other first = true → accepts l other site = true) :
    Assignment l frees (sites.erase first)
      ((given.erase (free,site)).map fun p => (p.1,Equiv.swap first site p.2)) := by
  have distinct : given.Nodup := .of_map _ assignment.cells
  have part : (given.erase (free,site)).Sublist given := erase_sublist
  have left {p : CellEvent × CellEvent} (member : p ∈ given.erase (free,site)) :
      p ∈ given ∧ p.1 ≠ free ∧ p.2 ≠ site := by
    obtain ⟨other,listed⟩ := distinct.mem_erase_iff.mp member
    exact ⟨listed,fun same => other (assignment.cell_unique listed takes same),
      fun same => other (assignment.site_unique listed takes same)⟩
  refine ⟨fun q member => ?_,?_,?_⟩
  · obtain ⟨p,kept,rfl⟩ := mem_map.mp member
    obtain ⟨listed,other,untaken⟩ := left kept
    obtain ⟨cell,among,accepted⟩ := assignment.accepted p listed
    refine ⟨(mem_cons.mp cell).resolve_left other,?_⟩
    by_cases here : p.2 = first
    · rw [here,Equiv.swap_apply_left]
      refine ⟨?_,later p.1 (here ▸ accepted)⟩
      exact (mem_erase_of_ne (here ▸ untaken).symm).mpr (assignment.accepted _ takes).2.1
    · rw [Equiv.swap_apply_of_ne_of_ne here untaken]
      exact ⟨(mem_erase_of_ne here).mpr among,accepted⟩
  · rw [map_map]
    exact assignment.cells.sublist (part.map _)
  · have swapped : ((given.erase (free,site)).map fun p => (p.1,Equiv.swap first site p.2)).map Prod.snd =
        ((given.erase (free,site)).map Prod.snd).map (Equiv.swap first site) := by
      rw [map_map,map_map]
      rfl
    rw [swapped]
    exact (assignment.sites.sublist (part.map _)).map (Equiv.injective _)

end Assignment

section Maximum

variable {l : Liveness} {frees sites : List CellEvent} {free first : CellEvent}
  {given : List (CellEvent × CellEvent)}

variable (ordered : sites.Pairwise fun a b => a.statement < b.statement)

include ordered

/-- Who can use the first site that a cell can go to can use every other one that it can go to. -/
theorem accepts_later (found : sites.find? (accepts l free) = some first) {site other : CellEvent}
    (listed : site ∈ sites) (accepted : accepts l free site = true)
    (uses : accepts l other first = true) : accepts l other site = true := by
  obtain ⟨here,before,after,rfl,refused⟩ := find?_eq_some_iff_append.mp found
  have order : first.statement ≤ site.statement := by
    rcases mem_append.mp listed with early | late
    · have := refused site early
      rw [accepted] at this
      cases this
    · rcases mem_cons.mp late with rfl | late
      · exact Nat.le_refl _
      · exact Nat.le_of_lt ((pairwise_cons.mp (pairwise_append.mp ordered).2.1).1 site late)
  rw [accepts_iff] at *
  exact ⟨Nat.lt_of_lt_of_le uses.1 order,accepted.2.1.trans (here.2.1.symm.trans uses.2.1),uses.2.2⟩

/-- When the first site goes to the first cell, what is left admits an assignment with one pair less. -/
theorem Assignment.rest (found : sites.find? (accepts l free) = some first)
    (assignment : Assignment l (free :: frees) sites given) :
    ∃ fewer, Assignment l frees (sites.erase first) fewer ∧ given.length ≤ fewer.length + 1 := by
  by_cases cell : ∃ site, (free,site) ∈ given
  · obtain ⟨site,takes⟩ := cell
    obtain ⟨_,listed,accepted⟩ := assignment.accepted _ takes
    refine ⟨_,assignment.exchange takes fun other => accepts_later ordered found listed accepted,?_⟩
    rw [length_map,length_erase_of_mem takes]
    omega
  · have unused (p : CellEvent × CellEvent) (member : p ∈ given) : p.1 ≠ free :=
      fun same => cell ⟨p.2,same ▸ member⟩
    by_cases taken : ∃ other, (other,first) ∈ given
    · obtain ⟨other,takes⟩ := taken
      have part : (given.erase (other,first)).Sublist given := erase_sublist
      have distinct : given.Nodup := .of_map _ assignment.cells
      refine ⟨_,(assignment.sublist part).narrow (fun p member => unused p (part.subset member)) ?_,?_⟩
      · intro p member same
        obtain ⟨different,listed⟩ := distinct.mem_erase_iff.mp member
        exact different (assignment.site_unique listed takes same)
      · rw [length_erase_of_mem takes]
        omega
    · refine ⟨given,assignment.narrow unused fun p member same => taken ⟨p.1,same ▸ member⟩,?_⟩
      exact Nat.le_succ _

theorem assignment_le (assignment : Assignment l frees sites given) :
    given.length ≤ (pairUp l frees sites).length := by
  induction frees generalizing sites given with
  | nil =>
    cases given with
    | nil => exact Nat.le_refl _
    | cons p _ => cases (assignment.accepted p mem_cons_self).1
  | cons free frees ih =>
    rw [pairUp]
    split
    · next refused =>
      refine ih ordered ⟨fun p member => ?_,assignment.cells,assignment.sites⟩
      obtain ⟨cell,site,accepted⟩ := assignment.accepted p member
      refine ⟨(mem_cons.mp cell).resolve_left fun same => ?_,site,accepted⟩
      exact find?_eq_none.mp refused p.2 site (same ▸ accepted)
    · next first found =>
      obtain ⟨fewer,left,count⟩ := assignment.rest ordered found
      exact Nat.le_trans count (Nat.succ_le_succ (ih (ordered.sublist erase_sublist) left))

end Maximum

section Matching

variable {form : LetForm} {l : Liveness} {early : String → Option Nat}

/-- The binding `pair.freed` can give its cell to the binding `pair.alloc`. Both allocate cells of the same
size, and the first one is given up early, not before its last use and before the second one is built. -/
structure Safe (form : LetForm) (l : Liveness) (early : String → Option Nat) (pair : ReusePair) : Prop where
  donor : ∃ b ∈ form.bindings, b.name = pair.freed ∧ allocationSize? b.init = some pair.size
  receiver : ∃ (k i : Nat) (b : Binding), early pair.freed = some k ∧
    (∀ last, l.lastStatement? pair.freed = some last → last ≤ k) ∧ k < i ∧
    form.bindings[i]? = some b ∧ b.name = pair.alloc ∧ allocationSize? b.init = some pair.size

/-- Safe pairs that use each donor and each receiver once. -/
structure IsMatching (form : LetForm) (l : Liveness) (early : String → Option Nat)
    (pairs : List ReusePair) : Prop where
  safe : ∀ pair ∈ pairs, Safe form l early pair
  donors : (pairs.map freed).Nodup
  receivers : (pairs.map alloc).Nodup

theorem safe_of_accepted {free site : CellEvent} (freed : free ∈ freesOf (sitesOf form) early)
    (listed : site ∈ sitesOf form) (accepted : accepts l free site = true) :
    Safe form l early ⟨free.name,site.name,site.size⟩ := by
  obtain ⟨before,size,used⟩ := accepts_iff.mp accepted
  obtain ⟨after,origin,there,named,sized⟩ := mem_freesOf.mp freed
  obtain ⟨b,bound,name,allocates⟩ := mem_sitesOf.mp there
  obtain ⟨c,bound',name',allocates'⟩ := mem_sitesOf.mp listed
  refine ⟨⟨b,mem_of_getElem? bound,name.trans named,?_⟩,
    free.statement,site.statement,c,after,used,before,bound',name',allocates'⟩
  rw [allocates,sized,size]

theorem Safe.events {pair : ReusePair} (safe : Safe form l early pair) :
    ∃ p : CellEvent × CellEvent, p.1.name = pair.freed ∧ p.2.name = pair.alloc ∧
      p.1 ∈ freesOf (sitesOf form) early ∧ p.2 ∈ sitesOf form ∧ accepts l p.1 p.2 = true := by
  obtain ⟨b,bound,name,allocates⟩ := safe.donor
  obtain ⟨k,i,c,after,used,before,bound',name',allocates'⟩ := safe.receiver
  obtain ⟨j,at_j⟩ := mem_iff_getElem?.mp bound
  refine ⟨(⟨pair.freed,pair.size,k⟩,⟨pair.alloc,pair.size,i⟩),rfl,rfl,?_,?_,?_⟩
  · exact mem_freesOf.mpr ⟨after,⟨pair.freed,pair.size,j⟩,mem_sitesOf.mpr ⟨b,at_j,name,allocates⟩,rfl,rfl⟩
  · exact mem_sitesOf.mpr ⟨c,bound',name',allocates'⟩
  · exact accepts_iff.mpr ⟨before,rfl,used⟩

theorem IsMatching.assignment {pairs : List ReusePair} (matching : IsMatching form l early pairs) :
    ∃ given, Assignment l (freesOf (sitesOf form) early) (sitesOf form) given ∧ given.length = pairs.length := by
  choose events freed alloc free site accepted using fun pair : { pair // pair ∈ pairs } =>
    (matching.safe pair.1 pair.2).events
  refine ⟨pairs.attach.map events,⟨fun p member => ?_,?_,?_⟩,?_⟩
  · obtain ⟨pair,_,rfl⟩ := mem_map.mp member
    exact ⟨free pair,site pair,accepted pair⟩
  · refine List.Nodup.of_map name ?_
    have names : ((pairs.attach.map events).map Prod.fst).map name = pairs.map ReusePair.freed := by
      simp [map_map,Function.comp_def,freed]
    rw [names]
    exact matching.donors
  · refine List.Nodup.of_map name ?_
    have names : ((pairs.attach.map events).map Prod.snd).map name = pairs.map ReusePair.alloc := by
      simp [map_map,Function.comp_def,alloc]
    rw [names]
    exact matching.receivers
  · rw [length_map,length_attach]

/-- The pairs of the analysis are safe, use each donor and each receiver once, and are as many as any other
pairs that do so. -/
theorem pairs_maximum (form : LetForm) (distinct : form.names.Nodup) (l : Liveness)
    (early : String → Option Nat) : IsMatching form l early (ofForm form l early).pairs ∧
      ∀ others, IsMatching form l early others →
        others.length ≤ (ofForm form l early).pairs.length := by
  have names := distinct.sublist (sitesOf_names form)
  constructor
  · refine ⟨fun pair member => ?_,?_,(pairUp_allocs l _ _ names).2⟩
    · obtain ⟨free,freed,site,listed,accepted,rfl⟩ := mem_pairUp member
      exact safe_of_accepted freed listed accepted
    · exact (freesOf_names names).sublist (pairUp_freed l _ _)
  · intro others matching
    obtain ⟨given,assignment,count⟩ := matching.assignment
    rw [← count]
    exact assignment_le (sitesOf_ordered form) assignment

/-- `(let ((a 1) (b (cons 2 3)) (c (+ a (car b))) (d (cons 4 5)) (e 6)) (cons d e))` -/
def tradeForm : LetForm where
  kind := .plain
  bindings := [
    ⟨"a",.int 1⟩,
    ⟨"b",.pair 2 (.sym "cons") (.pair 1 (.int 2) (.pair 0 (.int 3) .nil))⟩,
    ⟨"c",.pair 7 (.sym "+") (.pair 6 (.sym "a")
      (.pair 5 (.pair 4 (.sym "car") (.pair 3 (.sym "b") .nil)) .nil))⟩,
    ⟨"d",.pair 10 (.sym "cons") (.pair 9 (.int 4) (.pair 8 (.int 5) .nil))⟩,
    ⟨"e",.int 6⟩]
  body := .pair 13 (.sym "cons") (.pair 12 (.sym "d") (.pair 11 (.sym "e") .nil))

/-- Two cells that are given up after the third statement go to the next ones of their size. -/
theorem trade_maximum : tradeForm.names.Nodup ∧
    (ofForm tradeForm (.ofForm tradeForm 64 256) fun _ => some 2).pairs =
      [⟨"a","e",8⟩,⟨"b","d",16⟩] ∧
    ∀ others, IsMatching tradeForm (.ofForm tradeForm 64 256) (fun _ => some 2) others →
      others.length ≤ 2 := by
  have distinct : tradeForm.names.Nodup := by decide
  have pairs : (ofForm tradeForm (.ofForm tradeForm 64 256) fun _ => some 2).pairs =
      [⟨"a","e",8⟩,⟨"b","d",16⟩] := by
    have frees : freesOf (sitesOf tradeForm) (fun _ => some 2) =
        (sitesOf tradeForm).map fun site => { site with statement := 2 } :=
      mergeSort_of_pairwise (by decide)
    rw [ofForm,frees]
    decide +kernel
  refine ⟨distinct,pairs,fun others matching => ?_⟩
  have most := (pairs_maximum tradeForm distinct (.ofForm tradeForm 64 256) fun _ => some 2).2 others matching
  rwa [pairs] at most

end Matching

end StagedLisp.Reuse
