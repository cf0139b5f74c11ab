import StagedLisp.Proofs.Ownership.Links

/-! Who owns a binding's storage. Every binding is recorded with the last statement it is live in,
and the owner of a storage is needed at least as long as the other names of it and their parts. -/
namespace StagedLisp.Ownership

open List Table Holding Option

variable {o : Ownership} {l : Liveness} {x : String} {f : Holding → Holding} {form : LetForm}

def rank : Option Nat → Nat
  | none => 0
  | some n => n + 1

theorem isLater_iff {a b : Option Nat} : isLater a b = true ↔ rank b < rank a := by
  cases a <;> cases b <;> simp [isLater,rank]

theorem lastUsed_latest {root z : String} {aliases : List String}
    (member : z = root ∨ z ∈ aliases ∧ (o.get? z).any declared) :
    rank (o.releasePoint? z) ≤ rank (o.releasePoint? (o.lastUsed root aliases)) := by
  have best (names : List String) (start : String) :
      rank (o.releasePoint? start) ≤ rank (o.releasePoint? (names.foldl (fun best name =>
          if isLater (o.releasePoint? name) (o.releasePoint? best) then name else best) start)) ∧
      ∀ z ∈ names, rank (o.releasePoint? z) ≤ rank (o.releasePoint? (names.foldl (fun best name =>
          if isLater (o.releasePoint? name) (o.releasePoint? best) then name else best) start)) := by
    induction names generalizing start with
    | nil => simp
    | cons name names ih =>
      rw [foldl_cons]
      split
      · next later =>
        obtain ⟨first,rest⟩ := ih name
        refine ⟨(isLater_iff.mp later).le.trans first,?_⟩
        exact forall_mem_cons.mpr ⟨first,rest⟩
      · next sooner =>
        obtain ⟨first,rest⟩ := ih start
        refine ⟨first,?_⟩
        intro z member
        rcases mem_cons.mp member with rfl | member
        · rw [isLater_iff,Nat.not_lt] at sooner
          exact sooner.trans first
        · exact rest z member
  rcases member with rfl | ⟨listed,declared⟩
  · exact (best _ z).1
  · exact (best _ root).2 z (mem_filter.mpr ⟨listed,declared⟩)

variable {y : String} {m : Nat} {h : Holding}

/-- The storage of a name is needed as long as the name itself and its parts are used. -/
theorem releasePoint_covers {z : String} (found : o.get? y = some h) (used : h.lastUse = some m)
    (held : (o.get? z).isSome) (part : z = y ∨ y ∈ o.projections z) :
    m + 1 ≤ rank (o.releasePoint? z) := by
  obtain ⟨whole,atZ⟩ := isSome_iff_exists.mp held
  have member : m ∈ whole.projections.filterMap (fun part => (o.get? part).bind lastUse) ++
      whole.lastUse.toList := by
    rcases part with rfl | listed
    · cases found.symm.trans atZ
      simp [used]
    · rw [projections,atZ] at listed
      apply mem_append_left
      exact mem_filterMap.mpr ⟨y,listed,by rw [found]; exact used⟩
  obtain ⟨last,latest⟩ := isSome_iff_exists.mp (isSome_max?_of_mem member)
  have point : o.releasePoint? z = some last := by
    rw [releasePoint?,atZ]
    exact latest
  rw [point]
  exact Nat.succ_le_succ ((max?_eq_some_iff.mp latest).2 m member)

/-- The second name is one of those the storage of the first goes by, or reads a part of one. -/
def tracks (o : Ownership) (x y : String) : Bool :=
  (o.root x :: ((o.get? (o.root x)).map Holding.aliases).getD []).any fun z =>
    (o.get? z).any declared && (z == y || (o.projections z).contains y)

theorem tracks_iff : o.tracks x y = true ↔
    ∃ z, (z = o.root x ∨ z ∈ o.aliases (o.root x)) ∧ (o.held z).declared = true ∧
      (z = y ∨ y ∈ o.projections z) := by
  have listed : ((o.get? (o.root x)).map Holding.aliases).getD [] = o.aliases (o.root x) := by
    unfold aliases held
    cases o.get? (o.root x) <;> rfl
  rw [tracks,listed,List.any_eq_true]
  simp only [mem_cons,declared_eq,Bool.and_eq_true,Bool.or_eq_true,beq_iff_eq,contains_iff_mem]

theorem owner?_eq (o : Ownership) (x : String) : o.owner? x =
    if (o.held (o.root x)).declared then some (o.lastUsed (o.root x) (o.aliases (o.root x)))
    else none := by
  unfold owner? aliases held
  dsimp only
  cases o.get? (o.root x) <;> rfl

theorem lastUsed_mem (o : Ownership) (root : String) (aliases : List String) :
    o.lastUsed root aliases = root ∨ o.lastUsed root aliases ∈ aliases ∧
      (o.held (o.lastUsed root aliases)).declared = true := by
  have chosen (names : List String) (start : String) : names.foldl (fun best name =>
        if isLater (o.releasePoint? name) (o.releasePoint? best) then name else best) start ∈ start :: names := by
    induction names generalizing start with
    | nil => simp
    | cons name names ih =>
      rw [foldl_cons]
      split
      · exact mem_cons_of_mem _ (ih name)
      · have := ih start
        simp only [mem_cons] at this ⊢
        exact this.imp_right .inr
  rcases mem_cons.mp (chosen _ root) with same | member
  · exact .inl same
  · rw [← declared_eq]
    exact .inr (mem_filter.mp member)

theorem owner_covers (owns : o.owner? x = some x) (tracked : o.tracks x y)
    (found : o.get? y = some h) (used : h.lastUse = some m) : m + 1 ≤ rank (o.releasePoint? x) := by
  obtain ⟨z,listed,declared,reads⟩ := tracks_iff.mp tracked
  rw [← declared_eq] at declared
  have held : (o.get? z).isSome := by
    cases atZ : o.get? z with
    | none => simp [atZ] at declared
    | some _ => rfl
  refine (releasePoint_covers found used held reads).trans ?_
  rw [owner?_eq] at owns
  split at owns
  · have bound := lastUsed_latest (listed.imp_right fun member => ⟨member,declared⟩)
    rwa [some.inj owns] at bound
  · cases owns

theorem owner_of_own (found : o.get? x = some h) (own : o.elidesDecrement x = false) : o.owner? x = some x := by
  rw [elidesDecrement,found] at own
  simpa using (Bool.or_eq_false_iff.mp own).2

/-- The owner of a storage is needed as long as a name that is tracked to it is live. -/
theorem ofForm_needed (owns : (ofForm form l).owner? x = some x)
    (tracked : (ofForm form l).tracks x y) (declared : y ∈ form.names)
    (last : l.lastStatement? y = some m) : m + 1 ≤ rank ((ofForm form l).releasePoint? x) := by
  obtain ⟨h,found,_,lastUse⟩ := ofForm_records form l declared
  exact owner_covers owns tracked found (lastUse.trans last)

def MentionedLater (form : LetForm) (x : String) : Prop :=
  ∃ (i : Nat) (b : Binding), form.bindings[i]? = some b ∧ x ∈ form.names.take i ∧ Mentions b.init x

theorem ofForm_projections (plain : form.IsPlain) (parts : (ofForm form l).projections x ≠ []) :
    MentionedLater form x := by
  obtain ⟨y,part⟩ := exists_mem_of_ne_nil _ parts
  obtain ⟨_,_,_,_,k,_,c,found,exposes⟩ := ofForm_part part
  obtain ⟨⟨_,projected⟩,exposed,rfl⟩ := map_eq_some_iff.mp exposes
  exact ⟨k,c,found,(plain k c found).exposed exposed,(plain k c found).mentions_exposed exposed⟩

theorem used_of_releasePoint (point : o.releasePoint? x = some m) :
    ∃ h, o.get? x = some h ∧ (h.lastUse.isSome ∨ o.projections x ≠ []) := by
  rw [releasePoint?] at point
  split at point
  · cases point
  · next h found =>
    refine ⟨h,found,?_⟩
    rcases mem_append.mp (max?_mem point) with part | own
    · apply Or.inr
      rw [projections,found]
      rintro none
      simp [none] at part
    · apply Or.inl
      cases used : h.lastUse with
      | none => simp [used] at own
      | some _ => rfl

end StagedLisp.Ownership
