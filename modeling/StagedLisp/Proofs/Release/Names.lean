import StagedLisp.Proofs.Release.Order

/-! The names that a release plan mentions: of bindings, of what their initialisers expose, and of
assigned variables. -/
namespace StagedLisp

open List

/-- The names by which the ownership of a form is recorded have a property. -/
structure LetForm.Named (P : String → Prop) (form : LetForm) : Prop where
  names : ∀ b ∈ form.bindings, P b.name
  exposed : ∀ b ∈ form.bindings, ∀ source part, exposed? b.init = some (source,part) → P source
  assigned : ∀ entry ∈ form.statements.flatMap assignments,
    P entry.1 ∧ ∀ source part, exposed? entry.2 = some (source,part) → P source

namespace Ownership

/-- Whatever a holding refers to has a property. -/
structure Named (P : String → Prop) (o : Ownership) : Prop where
  rooted : o.Rooted P
  aliases : ∀ x, ∀ y ∈ o.aliases x, P y

section Named

variable {P : String → Prop} {o : Ownership} {x : String}

variable (named : o.Named P)

include named

theorem Named.assign {target : String} {value : Value} (known : P target)
    (exposes : ∀ source part, exposed? value = some (source,part) → P source) :
    (o.assign target value).Named P := by
  have assigns := assigns_assign o target value
  have root (r : String) (assigned : o.assigned? target value = some r) : P r := by
    obtain ⟨source,kept,rfl⟩ := Option.map_eq_some_iff.mp assigned
    have aliased := (Option.filter_eq_some_iff.mp kept).1
    unfold aliased? at aliased
    split at aliased
    · next found =>
      cases aliased
      exact named.rooted.root (exposes source false found)
    · cases aliased
  refine ⟨⟨fun x r linked => ?_,fun x r part => ?_⟩,fun x y member => ?_⟩
  · rw [assigns.aliasOf] at linked
    split at linked
    · exact root r linked
    · exact named.rooted.ofAlias x r linked
  · exact named.rooted.ofPart x r (assigns.projectionOf x ▸ part)
  · rcases (assigns.aliases x y).mp member with old | ⟨_,rfl⟩
    · exact named.aliases x y old
    · exact known

theorem Named.assigned {entries : List (String × Value)} (each : ∀ entry ∈ entries, P entry.1 ∧
      ∀ source part, exposed? entry.2 = some (source,part) → P source) :
    Named P (entries.foldl (fun o (target,value) => o.assign target value) o) := by
  induction entries generalizing o with
  | nil => exact named
  | cons entry entries ih =>
    obtain ⟨target,exposes⟩ := each entry mem_cons_self
    exact ih (named.assign target exposes) fun other listed => each other (.tail _ listed)

omit named in
theorem ofForm_named {form : LetForm} (l : Liveness) (named : form.Named P) : (ofForm form l).Named P := by
  have declared (bindings : List Binding) (each : ∀ b ∈ bindings, b ∈ form.bindings) :
      (declareAll l bindings).Named P := by
    refine ⟨declareAll_rooted l fun b member => named.exposed b (each b member),fun x y member => ?_⟩
    obtain ⟨i,b,found,rfl,_⟩ := (mem_aliases_declareAll l bindings).mp member
    exact named.names b (each b (mem_of_getElem? found))
  exact (declared _ fun _ => id).assigned named.assigned

theorem Named.owner (known : P x) {owner : String} (owns : o.owner? x = some owner) : P owner := by
  rw [owner?_eq] at owns
  split at owns
  · cases owns
    rcases lastUsed_mem o (o.root x) (o.aliases (o.root x)) with root | ⟨listed,_⟩
    · rw [root]
      exact named.rooted.root known
    · exact named.aliases _ _ listed
  · cases owns

end Named

end Ownership

def Release.mentions : Release → List String
  | elided owner => owner.toList
  | projected name | donated name => [name]
  | _ => []

def BindingPlan.mentions (p : BindingPlan) : List String :=
  p.name :: (p.reuses.toList ++ p.release.mentions)

namespace Plans

variable {form : LetForm} {known : Table Shape} {options : Options} {P : String → Prop}

theorem mem_pairs_names {pair : ReusePair} (member : pair ∈ (Analysis.ofForm form known options).reuse.pairs) :
    pair.freed ∈ form.names ∧ pair.alloc ∈ form.names := by
  obtain ⟨_,_,listed,_⟩ := Analysis.mem_pairs member
  obtain ⟨free,frees,site,sites,_,rfl⟩ := Reuse.mem_pairUp listed
  exact ⟨Reuse.free_named frees,(Reuse.sitesOf_names form).subset (mem_map_of_mem sites)⟩

theorem releaseOf_mentions {a : Analysis} {shape : Shape} {x : String} (named : a.ownership.Named P)
    (own : P x) : ∀ y ∈ (BindingPlan.releaseOf a options x shape).mentions, P y := by
  unfold BindingPlan.releaseOf
  dsimp only
  split
  · nofun
  · split
    · next whole part =>
      exact forall_mem_singleton.mpr (named.rooted.ofPart _ _ part)
    · split
      · intro y member
        obtain ⟨owns,_⟩ := Option.filter_eq_some_iff.mp (Option.mem_toList.mp member)
        exact named.owner own owns
      · repeat' split
        all_goals nofun

theorem ofForm_mentions {values : List Value} (distinct : form.names.Nodup)
    (full : values.length = form.bindings.length) (named : form.Named P) :
    ∀ p ∈ ofForm form values (Analysis.ofForm form known options) options, ∀ y ∈ p.mentions, P y := by
  have bound {x : String} (member : x ∈ form.names) : P x := by
    obtain ⟨b,listed,rfl⟩ := mem_map.mp member
    exact named.names b listed
  have owned : (Analysis.ofForm form known options).ownership.Named P := by
    rw [Analysis.ofForm_ownership]
    exact Ownership.ofForm_named _ named
  intro p member
  refine ofForm_all (P := fun p => P p.name → ∀ y ∈ p.mentions, P y) ?_ ?_ ?_ p member ?_
  · intro b _ value own y mentioned
    rcases mem_cons.mp mentioned with rfl | mentioned
    · exact own
    · rcases mem_append.mp mentioned with taken | noted
      · cases taken
      · rw [ofBinding_release] at noted
        split at noted
        · exact releaseOf_mentions owned own y noted
        · cases noted
  · intro pair listed init p old _ own y mentioned
    obtain ⟨freed,alloc⟩ := mem_pairs_names listed
    rcases mem_cons.mp mentioned with rfl | mentioned
    · exact own
    · have rest (inside : y ∈ p.reuses.toList ++ p.release.mentions) : P y := old own y (.tail _ inside)
      simp only [handOver] at mentioned
      rcases mem_append.mp mentioned with taken | noted
      · split at taken
        · cases mem_singleton.mp taken
          exact bound freed
        · exact rest (mem_append_left _ taken)
      · split at noted
        · cases mem_singleton.mp noted
          exact bound alloc
        · exact rest (mem_append_right _ noted)
  · exact fun _ _ _ _ old => old
  · obtain ⟨i,found⟩ := mem_iff_getElem?.mp member
    obtain ⟨b,listed,same⟩ := binding_at distinct full found
    exact same ▸ named.names b (mem_of_getElem? listed)

end Plans

end StagedLisp
