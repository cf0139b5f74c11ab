import Mathlib.Data.List.Induction
import Mathlib.Data.List.Perm.Subperm
import StagedLisp.Ownership
import StagedLisp.Proofs.Form.Names
import StagedLisp.Proofs.Table

/-! The links between the names of a block. A declaration attaches its name to the root of another one,
or to the whole that this is a part of, and touches no other link. As a root has no link, the links never
form a circle, and following them ends at a root. -/
namespace StagedLisp

open List Binding

/-- What a binding is attached to: the name whose structure its initialiser exposes, unless that is its
own, and whether it is attached as a part. -/
def Binding.source? (b : Binding) : Option (String × Bool) :=
  (exposed? b.init).filter fun source => source.1 != b.name

namespace Ownership

variable {o : Ownership} {l : Liveness} {b : Binding} {x y source target : String} {value : Value}

/-- What is known of a name; one that is new belongs to someone outside the block. -/
def held (o : Ownership) (x : String) : Holding := (o.get? x).getD { borrowed := true }

def aliases (o : Ownership) (x : String) : List String := (o.held x).aliases

/-- The name that the storage of a name goes by, or that of the whole it is a part of. -/
def whole (o : Ownership) (x : String) : String := (o.projectionOf? (o.root x)).getD (o.root x)

def rootFor? (o : Ownership) (b : Binding) : Option String :=
  b.source?.bind fun source => if source.2 then none else some (o.root source.1)

def wholeFor? (o : Ownership) (b : Binding) : Option String :=
  b.source?.bind fun source => if source.2 then some (o.whole source.1) else none

theorem aliasOf?_eq (o : Ownership) (x : String) : o.aliasOf? x = (o.held x).aliasOf := by
  unfold aliasOf? held
  cases o.get? x <;> rfl

theorem projectionOf?_eq (o : Ownership) (x : String) : o.projectionOf? x = (o.held x).projectionOf := by
  unfold projectionOf? held
  cases o.get? x <;> rfl

theorem projections_held (o : Ownership) (x : String) : o.projections x = (o.held x).projections := by
  unfold projections held
  cases o.get? x <;> rfl

theorem declared_eq (o : Ownership) (x : String) : (o.get? x).any Holding.declared = (o.held x).declared := by
  unfold held
  cases o.get? x <;> rfl

theorem held_set (o : Ownership) (name : String) (h : Holding) (x : String) :
    held (Table.set o name h) x = if x = name then h else o.held x := by
  unfold held
  rw [Table.get?_set]
  split <;> rfl

theorem held_amend (o : Ownership) (name : String) (f : Holding → Holding) (x : String) :
    (o.amend name f).held x = if x = name then f (o.held x) else o.held x := by
  rw [amend,held_set]
  split
  · next same => rw [same,held]
  · rfl

theorem classify_none (none : b.source? = none) : (o.classify l b).2 = o ∧ ∃ unique,
    (o.classify l b).1 = { declared := true, lastUse := l.lastStatement? b.name, unique } := by
  unfold source? at none
  unfold classify
  split
  · next source isPart exposed =>
    have self : source = b.name := by simpa [exposed,Option.filter] using none
    rw [if_pos self]
    exact ⟨rfl,_,rfl⟩
  · exact ⟨rfl,_,rfl⟩

theorem classify_some {isPart : Bool} (attached : b.source? = some (source,isPart)) :
    o.classify l b = if isPart then
      ({ declared := true
         lastUse := l.lastStatement? b.name
         projectionOf := some (o.whole source) },
        o.amend (o.whole source) fun h => { h with projections := addName h.projections b.name })
    else
      ({ declared := true
         lastUse := l.lastStatement? b.name
         aliasOf := some (o.root source) },
        o.amend (o.root source) fun h =>
          { h with unique := false, aliases := addName h.aliases b.name }) := by
  obtain ⟨exposed,other⟩ := Option.filter_eq_some_iff.mp attached
  have differs : source ≠ b.name := by simpa using other
  simp only [classify,exposed,if_neg differs]
  rfl

theorem classify_fst (l : Liveness) (o : Ownership) (b : Binding) : ∃ unique, (o.classify l b).1 =
    { declared := true
      lastUse := l.lastStatement? b.name
      aliasOf := o.rootFor? b
      projectionOf := o.wholeFor? b
      unique } := by
  unfold rootFor? wholeFor?
  cases attached : b.source? with
  | none => exact (classify_none attached).2
  | some source =>
    obtain ⟨source,isPart⟩ := source
    rw [classify_some attached]
    cases isPart <;> exact ⟨_,rfl⟩

theorem classify_snd (l : Liveness) (o : Ownership) (b : Binding) (x : String) : ∃ unique,
    (o.classify l b).2.held x = { o.held x with
        unique
        aliases := if o.rootFor? b = some x then addName (o.aliases x) b.name else o.aliases x
        projections := if o.wholeFor? b = some x then addName (o.projections x) b.name
          else o.projections x } := by
  unfold rootFor? wholeFor? aliases
  simp only [projections_held]
  cases attached : b.source? with
  | none =>
    rw [(classify_none attached).1]
    exact ⟨(o.held x).unique,rfl⟩
  | some source =>
    obtain ⟨source,isPart⟩ := source
    rw [classify_some attached]
    cases isPart with
    | false =>
      simp only [Bool.false_eq_true,if_false,held_amend,Option.bind_some,Option.some.injEq,
        reduceCtorEq,eq_comm (b := x)]
      split <;> exact ⟨_,rfl⟩
    | true =>
      simp only [if_true,held_amend,Option.bind_some,Option.some.injEq,reduceCtorEq,if_false,eq_comm (b := x)]
      split <;> exact ⟨_,rfl⟩

theorem declare_eq (l : Liveness) (o : Ownership) (b : Binding) : ∃ unique,
    declare l o b = (o.classify l b).2.set b.name { (o.classify l b).1 with
      aliases := (o.classify l b).2.aliases b.name
      projections := (o.classify l b).2.projections b.name
      unique } := by
  obtain ⟨unique,new⟩ := classify_fst l o b
  unfold declare aliases
  simp only [projections_held]
  unfold held
  split
  · next known found => exact ⟨false,by rw [found]; rfl⟩
  · next absent =>
    refine ⟨unique,?_⟩
    rw [absent,new]
    rfl

theorem held_declare (l : Liveness) (o : Ownership) (b : Binding) (x : String) : ∃ unique, (declare l o b).held x =
      { unique
        borrowed := if x = b.name then false else (o.held x).borrowed
        aliasOf := if x = b.name then o.rootFor? b else o.aliasOf? x
        aliases := if o.rootFor? b = some x then addName (o.aliases x) b.name else o.aliases x
        projectionOf := if x = b.name then o.wholeFor? b else o.projectionOf? x
        projections := if o.wholeFor? b = some x then addName (o.projections x) b.name
          else o.projections x
        lastUse := if x = b.name then l.lastStatement? x else (o.held x).lastUse
        declared := if x = b.name then true else (o.held x).declared } := by
  obtain ⟨_,equal⟩ := declare_eq l o b
  obtain ⟨_,new⟩ := classify_fst l o b
  obtain ⟨_,others⟩ := classify_snd l o b x
  rw [equal,held_set]
  by_cases here : x = b.name
  · subst here
    simp only [if_true,new,aliases,projections_held] at others ⊢
    rw [others]
    exact ⟨_,rfl⟩
  · simp only [if_neg here,others,aliasOf?_eq,projectionOf?_eq]
    exact ⟨_,rfl⟩

section Declare

variable (o l b x)

theorem aliasOf?_declare : (declare l o b).aliasOf? x = if x = b.name then o.rootFor? b else o.aliasOf? x := by
  obtain ⟨_,equal⟩ := held_declare l o b x
  rw [aliasOf?_eq,equal]

theorem projectionOf?_declare : (declare l o b).projectionOf? x =
    if x = b.name then o.wholeFor? b else o.projectionOf? x := by
  obtain ⟨_,equal⟩ := held_declare l o b x
  rw [projectionOf?_eq,equal]

theorem mem_aliases_declare : y ∈ (declare l o b).aliases x ↔
    y ∈ o.aliases x ∨ o.rootFor? b = some x ∧ y = b.name := by
  obtain ⟨_,equal⟩ := held_declare l o b x
  rw [aliases,equal]
  by_cases here : o.rootFor? b = some x <;> simp [here,mem_addName]

theorem mem_projections_declare : y ∈ (declare l o b).projections x ↔
    y ∈ o.projections x ∨ o.wholeFor? b = some x ∧ y = b.name := by
  obtain ⟨_,equal⟩ := held_declare l o b x
  rw [projections_held,equal]
  by_cases here : o.wholeFor? b = some x <;> simp [here,mem_addName]

theorem declared_declare : ((declare l o b).held x).declared = true ↔ (o.held x).declared = true ∨ x = b.name := by
  obtain ⟨_,equal⟩ := held_declare l o b x
  rw [equal]
  by_cases here : x = b.name <;> simp [here]

end Declare

/-- The root that an assignment attaches its target to; none if the value is not a name, or is that of
the target. -/
def assigned? (o : Ownership) (target : String) (value : Value) : Option String :=
  ((aliased? value).filter (· != target)).map o.root

/-- An assignment that attaches its target to a root adds an alias, and a link unless this would lead
from the target to itself. -/
structure Assigns (o : Ownership) (target : String) (root : Option String) (o' : Ownership) : Prop where
  declared : ∀ x, (o'.held x).declared = (o.held x).declared
  lastUse : ∀ x, (o'.held x).lastUse = (o.held x).lastUse
  borrowed : ∀ x, (o'.held x).borrowed = true → (o.held x).borrowed = true
  projectionOf : ∀ x, o'.projectionOf? x = o.projectionOf? x
  projections : ∀ x, o'.projections x = o.projections x
  aliasOf : ∀ x, o'.aliasOf? x = if x = target ∧ root ≠ none ∧ root ≠ some target then root else o.aliasOf? x
  aliases : ∀ x y, y ∈ o'.aliases x ↔ y ∈ o.aliases x ∨ root = some x ∧ y = target

theorem get?_adjust (o : Ownership) (name : String) (f : Holding → Holding) (x : String) :
    (o.adjust name f).get? x = if x = name then (o.get? name).map f else o.get? x := by
  unfold adjust
  split
  · next h found =>
    rw [Table.get?_set,found]
    rfl
  · next absent =>
    split
    · next same => rw [same,absent]; rfl
    · rfl

theorem assigns_none (o : Ownership) (target : String) :
    Assigns o target none (o.adjust target fun h => { h with unique := false }) := by
  have same (x : String) : ∃ unique,
      (o.adjust target fun h => { h with unique := false }).held x = { o.held x with unique } := by
    unfold held
    rw [get?_adjust]
    by_cases here : x = target
    · subst here
      rw [if_pos rfl]
      cases o.get? x <;> exact ⟨false,rfl⟩
    · rw [if_neg here]
      exact ⟨_,rfl⟩
  constructor
  all_goals
    intro x
    obtain ⟨_,equal⟩ := same x
    simp [aliasOf?_eq,projectionOf?_eq,projections_held,aliases,equal]

theorem held_attachAlias (o : Ownership) (target source x : String) : ∃ unique,
    (o.attachAlias target source).2.held x = { o.held x with
        unique
        aliases := if o.root source = x then addName (o.aliases x) target else o.aliases x } := by
  simp only [attachAlias,held_amend,aliases,eq_comm (b := x)]
  split <;> exact ⟨_,rfl⟩

/-- A name that was not known is not taken to belong to someone outside once it is assigned to. -/
theorem getD_held (o : Ownership) (x : String) : ∃ borrowed, (o.get? x).getD {} = { o.held x with borrowed } ∧
    (borrowed = true → (o.held x).borrowed = true) := by
  unfold held
  cases o.get? x with
  | none => exact ⟨false,rfl,by simp⟩
  | some h => exact ⟨h.borrowed,rfl,id⟩

theorem held_assign (o : Ownership) (named : aliased? value = some source) (other : source ≠ target) (x : String) :
    ∃ unique borrowed, (o.assign target value).held x = { o.held x with
        unique
        borrowed
        aliasOf := if x = target ∧ o.root source ≠ target then some (o.root source) else o.aliasOf? x
        aliases := if o.root source = x then addName (o.aliases x) target else o.aliases x } ∧
      (borrowed = true → (o.held x).borrowed = true) := by
  obtain ⟨unique,attached⟩ := held_attachAlias o target source x
  have root : (o.attachAlias target source).1 = o.root source := rfl
  simp only [assign,named,if_neg other,root,aliasOf?_eq]
  by_cases self : o.root source = target
  · refine ⟨unique,(o.held x).borrowed,?_,id⟩
    simp [self,attached]
  · rw [if_neg self,held_set]
    by_cases here : x = target
    · subst here
      obtain ⟨borrowed,known,outside⟩ := getD_held (o.attachAlias x source).2 x
      rw [attached] at known outside
      refine ⟨false,borrowed,?_,outside⟩
      simp [self,known]
    · refine ⟨unique,(o.held x).borrowed,?_,id⟩
      simp [here,attached]

theorem assigns_some (o : Ownership) (named : aliased? value = some source) (other : source ≠ target) :
    Assigns o target (some (o.root source)) (o.assign target value) := by
  have after := held_assign o named other
  constructor
  all_goals
    intro x
    obtain ⟨_,_,equal,outside⟩ := after x
    simp only [aliasOf?_eq,projectionOf?_eq,projections_held,aliases,equal]
  · exact outside
  · simp
  · intro y
    by_cases here : o.root source = x <;> simp [here,mem_addName]

theorem assigns_assign (o : Ownership) (target : String) (value : Value) :
    Assigns o target (o.assigned? target value) (o.assign target value) := by
  have unnamed (none : (aliased? value).filter (· != target) = none)
      (same : o.assign target value = o.adjust target fun h => { h with unique := false }) :
      Assigns o target (o.assigned? target value) (o.assign target value) := by
    rw [assigned?,none,same]
    exact assigns_none o target
  cases named : aliased? value with
  | none => exact unnamed (by rw [named]; rfl) (by simp only [assign,named])
  | some source =>
    by_cases self : source = target
    · exact unnamed (by simp [named,self,Option.filter]) (by simp only [assign,named,self,if_true])
    · simpa [assigned?,named,self,Option.filter] using assigns_some o named self

def Links (o : Ownership) (x y : String) : Prop := o.aliasOf? x = some y ∧ y ≠ x

/-- Each link goes down in rank, so that there is no circle of links. -/
def Ranked (o : Ownership) : Prop := ∃ rank : String → Nat, ∀ x y, o.Links x y → rank y < rank x

def Final (o : Ownership) (x : String) : Prop := ∀ y, ¬ o.Links x y

section Follow

theorem Links.functional {z : String} (first : o.Links x y) (second : o.Links x z) : y = z :=
  Option.some.inj (first.1.symm.trans second.1)

theorem Links.known (link : o.Links x y) : x ∈ o.map Prod.fst := by
  obtain ⟨h,found,_⟩ := Option.bind_eq_some_iff.mp link.1
  obtain ⟨before,after,rfl,_⟩ := lookup_eq_some_iff.mp found
  simp

theorem follow_link (link : o.Links x y) (steps : Nat) : o.follow (steps + 1) x = o.follow steps y := by
  rw [follow,link.1]
  exact if_neg link.2

theorem follow_of_final (final : o.Final x) (steps : Nat) : o.follow steps x = x := by
  cases steps with
  | zero => rfl
  | succ steps =>
    rw [follow]
    split
    · next y linked =>
      by_cases self : y = x
      · exact if_pos self
      · exact absurd ⟨linked,self⟩ (final y)
    · rfl

theorem follow_more {steps : Nat} (final : o.Final (o.follow steps x)) :
    o.follow (steps + 1) x = o.follow steps x := by
  induction steps generalizing x with
  | zero => exact follow_of_final final 1
  | succ steps ih =>
    by_cases linked : ∃ y, o.Links x y
    · obtain ⟨y,link⟩ := linked
      rw [follow_link link] at final
      rw [follow_link link,follow_link link,ih final]
    · rw [follow_of_final (not_exists.mp linked),follow_of_final (not_exists.mp linked)]

/-- Following links ends if there are as many steps as names not met before, which have lower rank. -/
theorem follow_final {rank : String → Nat} (down : ∀ x y, o.Links x y → rank y < rank x)
    (steps : Nat) (met : List String) (distinct : met.Nodup)
    (above : ∀ v ∈ met, v ∈ o.map Prod.fst ∧ rank x < rank v)
    (enough : o.length < steps + met.length) : o.Final (o.follow steps x) := by
  induction steps generalizing x met with
  | zero =>
    have := (distinct.subperm fun v member => (above v member).1).length_le
    rw [length_map] at this
    omega
  | succ steps ih =>
    by_cases linked : ∃ y, o.Links x y
    · obtain ⟨y,link⟩ := linked
      have lower := down x y link
      rw [follow_link link]
      refine ih (x :: met) (nodup_cons.mpr ⟨?_,distinct⟩) ?_ (by rw [length_cons]; omega)
      · exact fun member => lt_irrefl _ (above x member).2
      · intro v member
        rcases mem_cons.mp member with rfl | member
        · exact ⟨link.known,lower⟩
        · exact ⟨(above v member).1,lower.trans (above v member).2⟩
    · have final := not_exists.mp linked
      rwa [follow_of_final final]

theorem root_of_final (final : o.Final x) : o.root x = x := follow_of_final final _

theorem Ranked.final (ranked : o.Ranked) (x : String) : o.Final (o.root x) := by
  obtain ⟨rank,down⟩ := ranked
  exact follow_final down (o.length + 1) [] nodup_nil (by simp) (by simp)

theorem Ranked.root_link (ranked : o.Ranked) (link : o.Links x y) : o.root x = o.root y := by
  obtain ⟨rank,down⟩ := ranked
  have final : o.Final (o.follow o.length y) := by
    refine follow_final down o.length [x] (nodup_singleton x) ?_ (by simp)
    intro v member
    rw [mem_singleton.mp member]
    exact ⟨link.known,down x y link⟩
  rw [root,root,follow_link link,follow_more final]

theorem Ranked.root_path (ranked : o.Ranked) (path : Relation.ReflTransGen o.Links x y) : o.root x = o.root y := by
  induction path with
  | refl => rfl
  | tail _ link ih => exact ih.trans (ranked.root_link link)

theorem Ranked.acyclic (ranked : o.Ranked) (x : String) : ¬ Relation.TransGen o.Links x x := by
  obtain ⟨rank,down⟩ := ranked
  have lower {y : String} (path : Relation.TransGen o.Links x y) : rank y < rank x := by
    induction path with
    | single link => exact down _ _ link
    | tail _ link ih => exact (down _ _ link).trans ih
  exact fun circle => lt_irrefl _ (lower circle)

theorem follow_path (o : Ownership) (steps : Nat) (x : String) :
    Relation.ReflTransGen o.Links x (o.follow steps x) := by
  induction steps generalizing x with
  | zero => exact .refl
  | succ steps ih =>
    by_cases linked : ∃ y, o.Links x y
    · obtain ⟨y,link⟩ := linked
      rw [follow_link link]
      exact .head link (ih y)
    · rw [follow_of_final (not_exists.mp linked)]

theorem Ranked.follow_beyond (ranked : o.Ranked) (x : String) (more : Nat) :
    o.follow (o.length + 1 + more) x = o.root x := by
  induction more with
  | zero => rfl
  | succ more ih =>
    rw [← ih]
    exact follow_more (ih ▸ ranked.final x)

theorem Ranked.root_ne (ranked : o.Ranked) (link : o.Links x y) : o.root x ≠ x := by
  intro same
  exact ranked.final x y (same.symm ▸ link)

theorem Ranked.relink {o' : Ownership} (ranked : o.Ranked) (target : String)
    (others : ∀ x, x ≠ target → o'.aliasOf? x = o.aliasOf? x)
    (new : ∀ r, o'.aliasOf? target = some r → o.Final r ∨ o.aliasOf? target = some r) :
    o'.Ranked := by
  obtain ⟨rank,down⟩ := ranked
  have old {x y : String} (link : o'.Links x y) (other : x ≠ target) : o.Links x y :=
    ⟨others x other ▸ link.1,link.2⟩
  by_cases added : ∃ r, o'.Links target r ∧ o.Final r
  · obtain ⟨r,linked,final⟩ := added
    refine ⟨fun x => if x = r then 0 else rank x + 1,?_⟩
    intro x y link
    by_cases here : x = target
    · subst here
      rw [linked.functional link] at *
      simp [Ne.symm link.2]
    · have before := old link here
      have other : x ≠ r := fun same => final y (same ▸ before)
      have := down x y before
      simp only [if_neg other]
      split <;> omega
  · refine ⟨rank,?_⟩
    intro x y link
    by_cases here : x = target
    · subst here
      rcases new y link.1 with final | same
      · exact absurd ⟨y,link,final⟩ added
      · exact down x y ⟨same,link.2⟩
    · exact down x y (old link here)

end Follow

/-- Every name that a link leads to has a property. -/
structure Rooted (P : String → Prop) (o : Ownership) : Prop where
  ofAlias : ∀ x r, o.aliasOf? x = some r → P r
  ofPart : ∀ x r, o.projectionOf? x = some r → P r

section Rooted

variable {P : String → Prop} (rooted : o.Rooted P)

include rooted

theorem Rooted.root (holds : P x) : P (o.root x) := by
  have along {y : String} (path : Relation.ReflTransGen o.Links x y) : P y := by
    cases path with
    | refl => exact holds
    | tail _ link => exact rooted.ofAlias _ y link.1
  exact along (follow_path ..)

theorem Rooted.whole (holds : P x) : P (o.whole x) := by
  unfold Ownership.whole
  cases part : o.projectionOf? (o.root x) with
  | none => exact rooted.root holds
  | some first => exact rooted.ofPart _ first part

theorem Rooted.attached (exposes : ∀ s part, exposed? b.init = some (s,part) → P s)
    (attached : o.rootFor? b = some x ∨ o.wholeFor? b = some x) : P x := by
  have source (s : String) (part : Bool) (found : b.source? = some (s,part)) : P s :=
    exposes s part (Option.filter_eq_some_iff.mp found).1
  rcases attached with root | whole
  · obtain ⟨⟨s,part⟩,found,same⟩ := Option.bind_eq_some_iff.mp root
    cases part <;> cases same
    exact rooted.root (source s _ found)
  · obtain ⟨⟨s,part⟩,found,same⟩ := Option.bind_eq_some_iff.mp whole
    cases part <;> cases same
    exact rooted.whole (source s _ found)

theorem Rooted.declare (exposes : ∀ s part, exposed? b.init = some (s,part) → P s) : (declare l o b).Rooted P := by
  constructor
  all_goals intro x r linked
  · rw [aliasOf?_declare] at linked
    split at linked
    · exact rooted.attached exposes (.inl linked)
    · exact rooted.ofAlias x r linked
  · rw [projectionOf?_declare] at linked
    split at linked
    · exact rooted.attached exposes (.inr linked)
    · exact rooted.ofPart x r linked

end Rooted

theorem Ranked.declare (ranked : o.Ranked) (l : Liveness) (b : Binding) : (declare l o b).Ranked := by
  refine ranked.relink b.name ?_ ?_
  · intro x other
    rw [aliasOf?_declare,if_neg other]
  · intro r linked
    rw [aliasOf?_declare,if_pos rfl,rootFor?] at linked
    obtain ⟨source,_,root⟩ := Option.bind_eq_some_iff.mp linked
    split at root
    · cases root
    · cases root
      exact .inl (ranked.final _)

theorem Ranked.assign (ranked : o.Ranked) (target : String) (value : Value) : (o.assign target value).Ranked := by
  have assigns := assigns_assign o target value
  refine ranked.relink target ?_ ?_
  · intro x other
    rw [assigns.aliasOf,if_neg fun all => other all.1]
  · intro r linked
    rw [assigns.aliasOf] at linked
    split at linked
    · obtain ⟨source,_,rfl⟩ := Option.map_eq_some_iff.mp linked
      exact .inl (ranked.final _)
    · exact .inr linked

def declareAll (l : Liveness) (bindings : List Binding) : Ownership :=
  bindings.foldl (declare l) []

section DeclareAll

variable {bindings : List Binding} {i : Nat} {last : Binding}

theorem declareAll_snoc (l : Liveness) (bindings : List Binding) (b : Binding) :
    declareAll l (bindings ++ [b]) = declare l (declareAll l bindings) b := by
  rw [declareAll,foldl_append]
  rfl

theorem declareAll_ranked (l : Liveness) (bindings : List Binding) : (declareAll l bindings).Ranked := by
  induction bindings using List.reverseRecOn with
  | nil => exact ⟨fun _ => 0,fun x y link => by cases link.1⟩
  | append_singleton bindings b ih =>
    rw [declareAll_snoc]
    exact ih.declare l b

theorem getElem?_snoc : (bindings ++ [last])[i]? = some b ↔
    bindings[i]? = some b ∨ i = bindings.length ∧ last = b := by
  rcases Nat.lt_trichotomy i bindings.length with before | rfl | beyond
  · simp [getElem?_append_left before,before.ne]
  · simp
  · have none : (bindings ++ [last])[i]? = none := getElem?_eq_none (by rw [length_append,length_singleton]; omega)
    simp [none,beyond.le,beyond.ne']

theorem take_snoc (found : bindings[i]? = some b) : (bindings ++ [last]).take i = bindings.take i :=
  take_append_of_le_length (List.getElem?_eq_some_iff.mp found).1.le

theorem links_declareAll (l : Liveness) (distinct : (bindings.map name).Nodup) (found : bindings[i]? = some b) :
    (declareAll l bindings).aliasOf? b.name = (declareAll l (bindings.take i)).rootFor? b ∧
    (declareAll l bindings).projectionOf? b.name = (declareAll l (bindings.take i)).wholeFor? b := by
  induction bindings using List.reverseRecOn with
  | nil => cases found
  | append_singleton bindings last ih =>
    rw [map_append,map_singleton,nodup_append] at distinct
    obtain ⟨distinct,_,apart⟩ := distinct
    rw [declareAll_snoc,aliasOf?_declare,projectionOf?_declare]
    rcases getElem?_snoc.mp found with before | ⟨rfl,rfl⟩
    · have other : b.name ≠ last.name := apart _ (mem_map_of_mem (mem_of_getElem? before)) _ (mem_singleton_self _)
      rw [if_neg other,if_neg other,take_snoc before]
      exact ih distinct before
    · simp

theorem no_links_declareAll (l : Liveness) (outside : x ∉ bindings.map name) :
    (declareAll l bindings).aliasOf? x = none ∧ (declareAll l bindings).projectionOf? x = none := by
  induction bindings using List.reverseRecOn with
  | nil => exact ⟨rfl,rfl⟩
  | append_singleton bindings last ih =>
    rw [map_append,mem_append,not_or] at outside
    have other : x ≠ last.name := by simpa using outside.2
    rw [declareAll_snoc,aliasOf?_declare,projectionOf?_declare,if_neg other,if_neg other]
    exact ih outside.1

theorem mem_declareAll {names : Ownership → String → List String}
    {target : Ownership → Binding → Option String} (empty : ∀ x, names [] x = [])
    (step : ∀ o b x y, y ∈ names (declare l o b) x ↔ y ∈ names o x ∨ target o b = some x ∧ y = b.name) :
    y ∈ names (declareAll l bindings) x ↔ ∃ i b, bindings[i]? = some b ∧ b.name = y ∧
      target (declareAll l (bindings.take i)) b = some x := by
  induction bindings using List.reverseRecOn with
  | nil => simp [declareAll,empty]
  | append_singleton bindings last ih =>
    rw [declareAll_snoc,step,ih]
    constructor
    · rintro (⟨i,b,found,named,attached⟩ | ⟨attached,rfl⟩)
      · exact ⟨i,b,getElem?_snoc.mpr (.inl found),named,by rwa [take_snoc found]⟩
      · exact ⟨bindings.length,last,getElem?_snoc.mpr (.inr ⟨rfl,rfl⟩),rfl,by simpa using attached⟩
    · rintro ⟨i,b,found,rfl,attached⟩
      rcases getElem?_snoc.mp found with before | ⟨rfl,rfl⟩
      · exact .inl ⟨i,b,before,rfl,by rwa [take_snoc before] at attached⟩
      · exact .inr ⟨by simpa using attached,rfl⟩

section

variable (l bindings)

theorem mem_aliases_declareAll : y ∈ (declareAll l bindings).aliases x ↔ ∃ i b, bindings[i]? = some b ∧ b.name = y ∧
      (declareAll l (bindings.take i)).rootFor? b = some x :=
  mem_declareAll (fun _ => rfl) fun o b x _ => mem_aliases_declare o l b x

theorem mem_projections_declareAll :
    y ∈ (declareAll l bindings).projections x ↔ ∃ i b, bindings[i]? = some b ∧ b.name = y ∧
      (declareAll l (bindings.take i)).wholeFor? b = some x :=
  mem_declareAll (fun _ => rfl) fun o b x _ => mem_projections_declare o l b x

theorem declared_declareAll (x : String) :
    ((declareAll l bindings).held x).declared = true ↔ x ∈ bindings.map name := by
  induction bindings using List.reverseRecOn with
  | nil => simp [declareAll,held,Table.get?]
  | append_singleton bindings last ih =>
    rw [declareAll_snoc,declared_declare,ih]
    simp

end

theorem held_declareAll (l : Liveness) (declared : x ∈ bindings.map name) :
    ((declareAll l bindings).held x).borrowed = false ∧
      ((declareAll l bindings).held x).lastUse = l.lastStatement? x := by
  induction bindings using List.reverseRecOn with
  | nil => cases declared
  | append_singleton bindings last ih =>
    obtain ⟨_,equal⟩ := held_declare l (declareAll l bindings) last x
    rw [declareAll_snoc,equal]
    by_cases here : x = last.name
    · exact ⟨if_pos here,if_pos here⟩
    · obtain ⟨own,used⟩ := ih (by simpa [here] using declared)
      exact ⟨(if_neg here).trans own,(if_neg here).trans used⟩

theorem declareAll_rooted {P : String → Prop} (l : Liveness)
    (exposes : ∀ b ∈ bindings, ∀ s part, exposed? b.init = some (s,part) → P s) :
    (declareAll l bindings).Rooted P := by
  induction bindings using List.reverseRecOn with
  | nil => constructor <;> simp [declareAll,aliasOf?,projectionOf?,Table.get?]
  | append_singleton bindings last ih =>
    obtain ⟨before,new⟩ := forall_mem_append.mp exposes
    rw [declareAll_snoc]
    exact (ih before).declare (new last (mem_singleton_self _))

end DeclareAll

def Renames (assignments : List (String × Value)) (target : String) : Prop :=
  ∃ value source, (target,value) ∈ assignments ∧ aliased? value = some source ∧ source ≠ target

/-- What assignments leave as it was: links may change but do not vanish, and only a renamed target
gets to be an alias. -/
structure AssignsAll (assignments : List (String × Value)) (o o' : Ownership) : Prop where
  ranked : o.Ranked → o'.Ranked
  declared : ∀ x, (o'.held x).declared = (o.held x).declared
  lastUse : ∀ x, (o'.held x).lastUse = (o.held x).lastUse
  borrowed : ∀ x, (o'.held x).borrowed = true → (o.held x).borrowed = true
  projectionOf : ∀ x, o'.projectionOf? x = o.projectionOf? x
  projections : ∀ x, o'.projections x = o.projections x
  linked : ∀ x y, o.Links x y → ∃ z, o'.Links x z
  aliases : ∀ x y, y ∈ o'.aliases x → y ∈ o.aliases x ∨ Renames assignments y

theorem assignsAll_foldl (assignments : List (String × Value)) (o : Ownership) :
    AssignsAll assignments o (assignments.foldl (fun o (target,value) => o.assign target value) o) := by
  induction assignments generalizing o with
  | nil =>
    exact ⟨id,fun _ => rfl,fun _ => rfl,fun _ => id,fun _ => rfl,fun _ => rfl,fun _ y link => ⟨y,link⟩,fun _ _ => .inl⟩
  | cons first rest ih =>
    obtain ⟨target,value⟩ := first
    have here := assigns_assign o target value
    have after := ih (o.assign target value)
    refine ⟨fun ranked => after.ranked (ranked.assign target value),
      fun x => (after.declared x).trans (here.declared x),
      fun x => (after.lastUse x).trans (here.lastUse x),
      fun x outside => here.borrowed x (after.borrowed x outside),
      fun x => (after.projectionOf x).trans (here.projectionOf x),
      fun x => (after.projections x).trans (here.projections x),?_,?_⟩
    · intro x y link
      have next : ∃ z, (o.assign target value).Links x z := by
        by_cases changed : x = target ∧ o.assigned? target value ≠ none ∧ o.assigned? target value ≠ some target
        · obtain ⟨rfl,some,other⟩ := changed
          obtain ⟨r,root⟩ := Option.ne_none_iff_exists'.mp some
          refine ⟨r,?_,fun same => other (same ▸ root)⟩
          rw [here.aliasOf,if_pos ⟨rfl,some,other⟩,root]
        · exact ⟨y,by rw [here.aliasOf,if_neg changed]; exact link.1,link.2⟩
      obtain ⟨z,link⟩ := next
      exact after.linked x z link
    · intro x y member
      rcases after.aliases x y member with member | ⟨value',source,listed,renames⟩
      · rcases (here.aliases x y).mp member with old | ⟨root,rfl⟩
        · exact .inl old
        · obtain ⟨source,named,_⟩ := Option.map_eq_some_iff.mp root
          obtain ⟨named,other⟩ := Option.filter_eq_some_iff.mp named
          exact .inr ⟨value,source,mem_cons_self,named,by simpa using other⟩
      · exact .inr ⟨value',source,mem_cons_of_mem _ listed,renames⟩

theorem ofForm_assigns (form : LetForm) (l : Liveness) :
    AssignsAll (form.statements.flatMap assignments) (declareAll l form.bindings) (ofForm form l) :=
  assignsAll_foldl _ _

theorem ofForm_ranked (form : LetForm) (l : Liveness) : (ofForm form l).Ranked :=
  (ofForm_assigns form l).ranked (declareAll_ranked l form.bindings)

theorem ofForm_declared (form : LetForm) (l : Liveness) (x : String) :
    ((ofForm form l).held x).declared = true ↔ x ∈ form.names := by
  rw [(ofForm_assigns form l).declared x]
  exact declared_declareAll l form.bindings x

theorem ofForm_records (form : LetForm) (l : Liveness) (member : x ∈ form.names) :
    ∃ h, (ofForm form l).get? x = some h ∧ h.declared ∧ h.lastUse = l.lastStatement? x := by
  have declared := (ofForm_declared form l x).mpr member
  have used := ((ofForm_assigns form l).lastUse x).trans (held_declareAll l member).2
  unfold held at declared used
  cases found : (ofForm form l).get? x with
  | none => simp [found] at declared
  | some h =>
    rw [found] at declared used
    exact ⟨h,rfl,declared,used⟩

/-- A part is read by a binding; the name it is listed at is one that this binding or an earlier one exposes. -/
theorem ofForm_part {form : LetForm} (part : y ∈ (ofForm form l).projections x) :
    ∃ (j : Nat) (b : Binding), form.bindings[j]? = some b ∧ b.name = y ∧
      ∃ k ≤ j, ∃ c, form.bindings[k]? = some c ∧ (exposed? c.init).map Prod.fst = some x := by
  rw [(ofForm_assigns form l).projections,mem_projections_declareAll] at part
  obtain ⟨j,b,found,named,whole⟩ := part
  refine ⟨j,b,found,named,?_⟩
  have exposes {k : Nat} {c : Binding} (before : k ≤ j) (there : form.bindings[k]? = some c) (s : String) (part : Bool)
      (exposed : exposed? c.init = some (s,part)) :
      ∃ k ≤ j, ∃ c, form.bindings[k]? = some c ∧ (exposed? c.init).map Prod.fst = some s :=
    ⟨k,before,c,there,by rw [exposed]; rfl⟩
  refine (declareAll_rooted l fun c member => ?_).attached (exposes le_rfl found) (.inr whole)
  obtain ⟨k,there⟩ := mem_iff_getElem?.mp member
  rw [getElem?_take] at there
  split at there
  · next before => exact exposes before.le there
  · cases there

/-- The links of a form lead from no name back to itself. So each name has one root, the only name without a
link that is reached from it, and more steps would lead no further. -/
theorem alias_links_acyclic (form : LetForm) (l : Liveness) : let o := ofForm form l
    (∀ x, ¬ Relation.TransGen o.Links x x) ∧
    ∀ x, o.root (o.root x) = o.root x ∧ (∀ more, o.follow (o.length + 1 + more) x = o.root x) ∧
      ∀ r, Relation.ReflTransGen o.Links x r ∧ o.Final r ↔ r = o.root x := by
  intro o
  have ranked : o.Ranked := ofForm_ranked form l
  refine ⟨ranked.acyclic,fun x => ⟨root_of_final (ranked.final x),ranked.follow_beyond x,fun r => ⟨?_,?_⟩⟩⟩
  · rintro ⟨path,final⟩
    rw [ranked.root_path path,root_of_final final]
  · rintro rfl
    exact ⟨follow_path ..,ranked.final x⟩

end Ownership

end StagedLisp
