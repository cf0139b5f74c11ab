import StagedLisp.Proofs.Release.Premature

/-! Storage from outside the block. A binding that exposes a name which no earlier binding has is released
in three ways only: if it exposes its own name, if a later binding has that name, and if it is assigned
another name. -/
namespace StagedLisp

open List BindingPlan Ownership Option

namespace Plans

variable {form : LetForm} {values : List Value} {a : Analysis} {options : Options}

/-- The block gives the storage of a name back unless the name or a part of it is captured or another
holder does. -/
theorem releaseOf_isOwn (a : Analysis) (options : Options) (name : String) (shape : Shape) :
    (releaseOf a options name shape).isOwn = true ↔
      (a.usage.usage? name).any Usage.captured = false ∧ a.partCaptured name = false ∧
      a.ownership.elidesDecrement name = false := by
  have settled (own : a.ownership.elidesDecrement name = false) :
      a.ownership.isBorrowed name = false ∧ a.ownership.projectionOf? name = none := by
    unfold elidesDecrement at own
    unfold isBorrowed projectionOf?
    cases found : a.ownership.get? name with
    | none => exact ⟨rfl,rfl⟩
    | some h =>
      simp only [found,Bool.or_eq_false_iff] at own
      exact ⟨own.1.1,by simpa using own.1.2⟩
  unfold releaseOf
  dsimp only
  by_cases captured : (a.usage.usage? name).any Usage.captured = true ∨ a.partCaptured name = true
  · rw [if_pos (by simpa using captured)]
    rcases captured with own | part
    · simp [Release.isOwn,own]
    · simp [Release.isOwn,part]
  · rw [if_neg (by simpa using captured)]
    rw [not_or,Bool.not_eq_true,Bool.not_eq_true] at captured
    cases elides : a.ownership.elidesDecrement name with
    | true =>
      cases a.ownership.projectionOf? name <;> simp [Release.isOwn]
    | false =>
      obtain ⟨kept,whole⟩ := settled elides
      have routine : ∃ routine, a.ownership.routine? name shape = some routine := by
        unfold routine?
        rw [kept,whole,if_neg (by simp)]
        split <;> exact ⟨_,rfl⟩
      obtain ⟨routine,found⟩ := routine
      simp only [whole,found,captured,Bool.false_eq_true,if_false]
      repeat' split
      all_goals simp [Release.isOwn]

theorem ofForm_isOwn (distinct : form.names.Nodup) : ∀ p ∈ ofForm form values a options,
    p.release.isOwn = true ↔ p.init.isSome = true ∧
      (a.usage.usage? p.name).any Usage.captured = false ∧ a.partCaptured p.name = false ∧
      a.ownership.elidesDecrement p.name = false := by
  refine ofForm_all ?_ ?_ ?_
  · intro b _ value
    have init : (ofBinding a options b value).init = value.declared? := rfl
    rw [ofBinding_release,init]
    by_cases some : value.declared?.isSome = true
    · rw [if_pos some,releaseOf_isOwn]
      simp [some,ofBinding]
    · simp [some,Release.isOwn]
  · intro pair _ init p same roles
    obtain ⟨donor,receiver⟩ := roles distinct
    have kept : (handOver pair init p).release.isOwn = p.release.isOwn := by
      by_cases gives : p.name = pair.freed
      · have early := donor gives
        unfold isEarly at early
        split at early
        · next released => simp [handOver,gives,released,Release.isOwn]
        · cases early
      · simp [handOver,gives]
    have built : (handOver pair init p).init.isSome = p.init.isSome := by
      by_cases takes : p.name = pair.alloc
      · simp only [handOver,if_pos takes,receiver takes,isSome_some]
      · simp only [handOver,if_neg takes]
    rw [kept,built]
    exact same
  · intro p init deaths built same
    rwa [built]

end Plans

theorem LetForm.position_unique {form : LetForm} {i j : Nat} {b c : Binding}
    (distinct : form.names.Nodup) (first : form.bindings[i]? = some b)
    (second : form.bindings[j]? = some c) (same : b.name = c.name) : i = j := by
  have nameAt := name_at first
  apply (getElem?_inj (lt_of_getElem? nameAt) distinct).mp
  rw [nameAt,name_at second,same]

namespace Ownership

variable {o : Ownership} {l : Liveness} {form : LetForm} {b : Binding} {i : Nat} {x y s : String}

theorem owner_self (owns : o.owner? x = some x) : (o.held (o.root x)).declared = true ∧
    (o.held x).declared = true ∧ (o.root x = x ∨ x ∈ o.aliases (o.root x)) := by
  rw [owner?_eq] at owns
  split at owns
  · next declared =>
    have last := some.inj owns
    rcases lastUsed_mem o (o.root x) (o.aliases (o.root x)) with root | ⟨member,known⟩
    · have self := root.symm.trans last
      exact ⟨declared,self ▸ declared,.inl self⟩
    · rw [last] at member known
      exact ⟨declared,known,.inr member⟩
  · cases owns

/-- The storage of a binding is given back through it if it is no part and its own owner. -/
theorem ofForm_elides (declared : x ∈ form.names) : (ofForm form l).elidesDecrement x = false ↔
    (ofForm form l).projectionOf? x = none ∧ (ofForm form l).owner? x = some x := by
  obtain ⟨h,found,_,_⟩ := ofForm_records form l declared
  have kept : h.borrowed = false := by
    have outside := (ofForm_assigns form l).borrowed x
    rw [(held_declareAll l declared).1,held,found] at outside
    simpa using outside
  unfold elidesDecrement projectionOf?
  simp [found,kept]

/-- A name exposed by a binding was no binding before, so that it has no link then. -/
theorem root_outside (l : Liveness) (outer : s ∉ form.names.take i) :
    (declareAll l (form.bindings.take i)).root s = s := by
  apply root_of_final
  intro y link
  have none := (no_links_declareAll l (by rwa [map_take])).1
  rw [link.1] at none
  cases none

/-- Another name for one from outside is released only if a later binding has that name, or if it is
assigned. -/
theorem outer_owner (distinct : form.names.Nodup) (bound : form.bindings[i]? = some b)
    (attached : b.source? = some (s,false)) (outer : s ∉ form.names.take i)
    (owns : (ofForm form l).owner? b.name = some b.name) :
    s ∈ form.names.drop (i + 1) ∨ Renames (form.statements.flatMap assignments) b.name := by
  have root : (declareAll l (form.bindings.take i)).rootFor? b = some s := by
    simp [rootFor?,attached,root_outside l outer]
  have other : s ≠ b.name := by
    simpa using (filter_eq_some_iff.mp attached).2
  have after := ofForm_assigns form l
  have linked : (declareAll l form.bindings).Links b.name s :=
    ⟨(links_declareAll l distinct bound).1.trans root,other⟩
  obtain ⟨z,link⟩ := after.linked _ _ linked
  obtain ⟨declared,_,place⟩ := owner_self owns
  have alias' := place.resolve_left ((ofForm_ranked form l).root_ne link)
  rcases after.aliases _ _ alias' with first | renamed
  · left
    obtain ⟨j,c,found,named,rootC⟩ := (mem_aliases_declareAll l form.bindings).mp first
    obtain rfl := LetForm.position_unique distinct bound found named.symm
    obtain rfl : b = c := some.inj (bound.symm.trans found)
    have same : (ofForm form l).root b.name = s := some.inj (rootC.symm.trans root)
    have member := (ofForm_declared form l _).mp declared
    rw [same,← take_append_drop (i + 1) form.names,mem_append,LetForm.mem_take_succ bound] at member
    exact member.resolve_left fun early => early.elim outer other
  · exact .inr renamed

end Ownership

/-- A binding that exposes a name which no binding before it has is released exactly if it has a value
that is not captured, is the owner of its storage and either exposes its own name, or is another name for
a later binding, or is assigned another name. -/
theorem Plans.outer_released_iff {form : LetForm} {known : Table Shape} {options : Options}
    {values : List Value} {i : Nat} {b : Binding} {p : BindingPlan} {s : String} {part : Bool}
    (distinct : form.names.Nodup) (bound : form.bindings[i]? = some b)
    (exposes : exposed? b.init = some (s,part)) (outer : s ∉ form.names.take i)
    (planned : p ∈ ofForm form values (Analysis.ofForm form known options) options)
    (named : p.name = b.name) :
    p.release.isOwn = true ↔ p.init.isSome = true ∧
      ((Analysis.ofForm form known options).usage.usage? b.name).any Usage.captured = false ∧
      (Analysis.ofForm form known options).partCaptured b.name = false ∧
      (Analysis.ofForm form known options).ownership.owner? b.name = some b.name ∧
      (s = b.name ∨ part = false ∧ (s ∈ form.names.drop (i + 1) ∨
        Ownership.Renames (form.statements.flatMap assignments) b.name)) := by
  have declared : b.name ∈ form.names := mem_map_of_mem (mem_of_getElem? bound)
  rw [ofForm_isOwn distinct p planned,named,Analysis.ofForm_ownership,
    Ownership.ofForm_elides declared]
  generalize Liveness.ofForm form options.livenessCap options.analysisDepth = l
  have whole : (Ownership.ofForm form l).projectionOf? b.name = none ↔
      s = b.name ∨ part = false := by
    rw [(Ownership.ofForm_assigns form l).projectionOf,
      (Ownership.links_declareAll l distinct bound).2,Ownership.wholeFor?,Binding.source?,exposes]
    by_cases self : s = b.name
    · simp [self,Option.filter]
    · cases part <;> simp [self,Option.filter]
  rw [whole]
  constructor
  · rintro ⟨built,free,parts,kind,owns⟩
    refine ⟨built,free,parts,owns,?_⟩
    by_cases self : s = b.name
    · exact .inl self
    · have alias' := kind.resolve_left self
      have attached : b.source? = some (s,false) := by
        simp [Binding.source?,exposes,alias',Option.filter,self]
      exact .inr ⟨alias',Ownership.outer_owner distinct bound attached outer owns⟩
  · rintro ⟨built,free,parts,owns,way⟩
    exact ⟨built,free,parts,way.imp_right And.left,owns⟩

theorem Plans.planned_of_listed {plans : List BindingPlan} {name : String} {release : Release}
    (listed : (name,release) ∈ plans.map fun p : BindingPlan => (p.name,p.release)) :
    ∃ p ∈ plans, p.name = name ∧ p.release = release := by
  simpa using listed

/-- `(let ((a p) (p (cons 1 2))) a)` -/
def hiddenForm : LetForm where
  kind := .plain
  bindings := [⟨"a",.sym "p"⟩,
    ⟨"p",.pair 2 (.sym "cons") (.pair 1 (.int 1) (.pair 0 (.int 2) .nil))⟩]
  body := .sym "a"

def hiddenValues : List Value := [.code (.text "p"),.code (.text "mk_pair(1, 2)")]

theorem hiddenForm_plans : (Plans.ofForm hiddenForm hiddenValues (Analysis.ofForm hiddenForm [] {}) {}).map
      (fun p : BindingPlan => (p.name,p.release)) =
        [("a",.atEnd .freeTree),("p",.elided (some "a"))] := by decide +kernel

/-- The variable `p` around the block is freed as `a`, since the block has a binding `p` later on. -/
theorem Plans.outer_storage_freed : hiddenForm.kind = .plain ∧
    hiddenForm.bindings[0]? = some ⟨"a",.sym "p"⟩ ∧ exposed? (.sym "p") = some ("p",false) ∧
    "p" ∉ hiddenForm.names.take 0 ∧
    ∃ p ∈ ofForm hiddenForm hiddenValues (Analysis.ofForm hiddenForm [] {}) {},
      p.name = "a" ∧ p.release.isOwn = true := by
  obtain ⟨p,listed,named,released⟩ :=
    planned_of_listed (hiddenForm_plans ▸ mem_cons_self)
  exact ⟨rfl,rfl,rfl,by decide,p,listed,named,by rw [released]; rfl⟩

theorem Plans.hidden_released_iff : hiddenForm.names.Nodup ∧ "p" ∉ hiddenForm.names.take 0 ∧
    ∃ p ∈ ofForm hiddenForm hiddenValues (Analysis.ofForm hiddenForm [] {}) {}, p.name = "a" ∧
      p.release.isOwn = true ∧ p.init.isSome = true ∧
      (Analysis.ofForm hiddenForm [] {}).ownership.owner? "a" = some "a" ∧
      ("p" = "a" ∨ "p" ∈ hiddenForm.names.drop 1 ∨
        Ownership.Renames (hiddenForm.statements.flatMap assignments) "a") := by
  have distinct : hiddenForm.names.Nodup := by decide
  have outer : "p" ∉ hiddenForm.names.take 0 := by decide
  have bound : hiddenForm.bindings[0]? = some ⟨"a",.sym "p"⟩ := rfl
  obtain ⟨p,listed,named,released⟩ :=
    planned_of_listed (hiddenForm_plans ▸ mem_cons_self)
  have own : p.release.isOwn = true := by rw [released]; rfl
  obtain ⟨built,_,_,owns,way⟩ :=
    (outer_released_iff distinct bound rfl outer listed named).mp own
  exact ⟨distinct,outer,p,listed,named,own,built,owns,way.imp_right And.right⟩

end StagedLisp
