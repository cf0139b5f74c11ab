import StagedLisp.Proofs.Eval.Sharing
import StagedLisp.Proofs.Flow.Use
import StagedLisp.Proofs.Ownership
import StagedLisp.Proofs.Release.Balance
import StagedLisp.Proofs.Usage.Tally

/-! Trees freed before the body. As deep as the analyses look, no name that is tracked to a freed tree
is mentioned later on. A name that holds cells of the tree in some other way may be, and is the only
other reason for which a tree is freed too early. -/
namespace StagedLisp

open List Ownership Tally

/-- What a node of a region uses is mentioned, or else counted as used. -/
theorem Flow.regionNodes_counted {visible : List String} {statement budget : Nat} {expr : Value}
    {y : String} {node : Node} (member : node ∈ regionNodes visible statement budget expr)
    (uses : y ∈ node.uses) :
    Mentions expr y ∨ ∀ depth inBody hidden t, y ∉ hidden → (count budget depth inBody hidden t expr).Used y := by
  have free {part : Value} (kept : y ∈ (freeVariables part).filter visible.contains) : Mentions part y :=
    ⟨walkLimit + 1,(mem_filter.mp kept).1⟩
  induction budget generalizing expr with
  | zero =>
    cases mem_singleton.mp member
    right
    intro depth inBody hidden t seen
    exact skip_used seen (mem_filter.mp uses).1
  | succ budget ih =>
    cases shown : conditional? expr with
    | none =>
      rw [regionNodes,shown] at member
      cases mem_singleton.mp member
      exact .inl (free uses)
    | some parts =>
      obtain ⟨test,onTrue,onFalse⟩ := parts
      have view : View.of? expr = some (.conditional test (onTrue :: onFalse.toList)) :=
        View.of?_items (conditional_items shown)
      rcases (mem_regionNodes_conditional shown).mp member with rfl | ⟨branch,listed,inside⟩
      · apply Or.inl
        apply (free uses).part view
        exact mem_map_of_mem mem_cons_self
      · have part : ([],branch) ∈ (View.conditional test (onTrue :: onFalse.toList)).parts :=
          mem_map_of_mem (.tail _ listed)
        apply (ih inside).imp
        · exact Mentions.part view part
        · intro counted depth inBody hidden t seen
          apply (used_lasting y).count_part view part
          intro inBody t
          rw [append_nil]
          exact counted (depth + 1) inBody hidden t seen

theorem Tally.mentions_or_used {form : LetForm} {depth j : Nat} {y : String} {node : Flow.Node}
    (distinct : form.names.Nodup) (inside : j ≤ form.bodyIndex)
    (member : node ∈ Flow.regionNodes (form.visibleIn j) j depth (form.statement j))
    (uses : y ∈ node.uses) : Mentions (form.statement j) y ∨ (ofForm form depth).Used y := by
  apply (Flow.regionNodes_counted member uses).imp_right
  intro counted
  apply (used_lasting y).ofForm inside
  have visible := Flow.regionNodes_visible member uses
  exact fun t => counted 1 false _ t (hiddenIn_of_visible distinct visible)

namespace Analysis

variable {form : LetForm} {known : Table Shape} {options : Options} {x : String}

/-- The storage of a name that gives it back is needed until the last mention of a tracked name. -/
theorem needed_until_mention (kind : form.kind = .plain) (positive : 0 < options.livenessCap)
    (small : options.analysisDepth ≤ walkLimit + 1)
    (own : (ofForm form known options).ownership.elidesDecrement x = false)
    (declared : x ∈ form.names) {y : String} {j : Nat}
    (tracked : (ofForm form known options).ownership.tracks x y) (inside : j ≤ form.bodyIndex)
    (bound : y ∈ form.names.take j)
    (seen : y ∈ freeNames options.analysisDepth [] [] (form.statement j)) :
    j + 1 ≤ rank ((ofForm form known options).ownership.releasePoint? x) := by
  rw [ofForm_ownership] at own tracked ⊢
  obtain ⟨_,found,_,_⟩ := ofForm_records form _ declared
  have visible : y ∈ form.visibleIn j := LetForm.visibleIn_plain kind j ▸ bound
  obtain ⟨m,last,later⟩ := Liveness.lastStatement_of_mention positive small (.inl le_rfl) inside visible seen
  have covered := ofForm_needed (owner_of_own found own) tracked (mem_of_mem_take bound) last
  omega

/-- If the storage of an unused name is needed at all, the mentions of the name stand too deep to be
counted. -/
theorem mention_of_needed (kind : form.kind = .plain) (distinct : form.names.Nodup)
    (plain : form.IsPlain) (positive : 0 < options.livenessCap)
    (unused : ((ofForm form known options).usage.usage? x).any (·.uses == 0))
    (declared : x ∈ form.names) {m : Nat}
    (needed : (ofForm form known options).ownership.releasePoint? x = some m) :
    ∃ j ≤ form.bodyIndex, x ∈ form.names.take j ∧ Mentions (form.statement j) x ∧
      x ∉ freeNames options.analysisDepth [] [] (form.statement j) := by
  rw [ofForm_usage] at unused
  rw [ofForm_ownership] at needed
  have uncounted := not_used unused
  have sees := LetForm.visibleIn_plain kind
  have mentioned : ∃ j ≤ form.bodyIndex, x ∈ form.visibleIn j ∧ Mentions (form.statement j) x := by
    obtain ⟨h,found,needed⟩ := used_of_releasePoint needed
    rcases needed with used | parts
    · obtain ⟨h',found',_,lastUse⟩ := ofForm_records form
        (Liveness.ofForm form options.livenessCap options.analysisDepth) declared
      cases found.symm.trans found'
      rw [lastUse] at used
      obtain ⟨m,last⟩ := Option.isSome_iff_exists.mp used
      obtain ⟨j,_,inside,visible,node,member,uses⟩ := Liveness.use_of_lastStatement positive last
      have mentions := (mentions_or_used distinct inside member uses).resolve_right uncounted
      exact ⟨j,inside,visible,mentions⟩
    · obtain ⟨j,b,bound,visible,mentions⟩ := ofForm_projections plain parts
      have inside := lt_of_getElem? bound
      refine ⟨j,inside.le,sees j ▸ visible,?_⟩
      rwa [LetForm.statement,bound]
  obtain ⟨j,inside,visible,mentions⟩ := mentioned
  refine ⟨j,inside,sees j ▸ visible,mentions,?_⟩
  exact fun seen => uncounted (ofForm_used distinct inside visible seen)

end Analysis

/-- The storage is given back as the analysis of the name says, unless its cell goes to another
binding or there is no value to give back. -/
def BindingPlan.Follows (a : Analysis) (options : Options) (p : BindingPlan) : Prop :=
  p.release.isDonated ∨ p.release = .borrowed ∨ p.release = releaseOf a options p.name (a.shapeOf p.name)

namespace Plans

variable {form : LetForm} {values : List Value} {a : Analysis} {options : Options}

theorem ofForm_follows : ∀ p ∈ ofForm form values a options, p.Follows a options := by
  refine ofForm_all ?_ ?_ ?_
  · intro b _ value
    rw [BindingPlan.Follows,ofBinding_release]
    split
    · exact .inr (.inr rfl)
    · exact .inr (.inl rfl)
  · intro pair _ init p follows _
    by_cases donor : p.name = pair.freed
    · exact .inl (by simp [handOver,donor,Release.isDonated])
    · simpa [BindingPlan.Follows,handOver,donor] using follows
  · exact fun _ _ _ _ follows => follows

end Plans

/-- The statement before the body after which the tree of a value is freed, if it is. -/
def Release.freedAfter? (declared : Nat) : Release → Option Nat
  | unused .freeTree => some declared
  | early after .freeTree => some after
  | _ => none

/-- A tree is freed when its storage is not needed any more, or at once if its name is not used. -/
theorem Plans.freed_cases {form : LetForm} {values : List Value} {a : Analysis} {options : Options}
    {p : BindingPlan} {i k : Nat} (listed : p ∈ ofForm form values a options)
    (freed : p.release.freedAfter? i = some k) :
    a.ownership.elidesDecrement p.name = false ∧ (a.ownership.releasePoint? p.name = some k ∨
        k = i ∧ (a.usage.usage? p.name).any (·.uses == 0)) := by
  rcases ofForm_follows p listed with donated | borrowed | same
  · cases release : p.release <;> simp_all [Release.freedAfter?,Release.isDonated]
  · rw [borrowed] at freed
    cases freed
  · unfold Release.freedAfter? at freed
    split at freed
    · next unused =>
      cases freed
      rw [same] at unused
      obtain ⟨own,unused⟩ := releaseOf_unused unused
      exact ⟨own,.inr ⟨rfl,unused⟩⟩
    · next early =>
      cases freed
      rw [same] at early
      obtain ⟨own,point,_⟩ := releaseOf_early early
      exact ⟨own,.inl point⟩
    · cases freed

namespace LetForm

variable {form : LetForm} {values : List Value} {v : Value} {i j k : Nat} {y : String}

/-- The `j`-th statement comes after the `k`-th and mentions an earlier binding, the value of which
has a cell in common with `v`. -/
structure ReachedAfter (form : LetForm) (values : List Value) (v : Value) (k j : Nat) (y : String) :
    Prop where
  later : k < j
  inside : j ≤ form.bodyIndex
  bound : y ∈ form.names.take j
  mentioned : Mentions (form.statement j) y
  shared : ∃ w, form.valueOf values y = some w ∧ ∃ c ∈ v.cells, c ∈ w.cells

/-- Cells of an early value come to late bindings only through mentions of early ones. -/
theorem Evaluates.reached_early {depth : Nat} {marks : Nat → Nat}
    (evaluates : form.Evaluates values depth marks) (names : form.names.Nodup)
    (cells : form.cells.Nodup) (below : ∀ c ∈ form.cells, c < marks 0) {b : Binding}
    (bound : form.bindings[i]? = some b) (value : values[i]? = some v)
    (reached : form.ReachedAfter values v k j y) :
    ∃ j y, y ∈ form.names.take (max i k + 1) ∧ form.ReachedAfter values v k j y := by
  have position {y : String} {w : Value} (found : form.valueOf values y = some w) :
      ∃ n < form.bindings.length, ∃ b, form.bindings[n]? = some b ∧ b.name = y ∧ values[n]? = some w := by
    apply valueBefore_position
    rw [valueBefore,take_of_length_le]
    · exact found
    · simp [LetForm.names]
  obtain ⟨w,found,c,inV,inW⟩ := reached.shared
  obtain ⟨n,inside,b',boundY,rfl,valueY⟩ := position found
  -- The binding in question moves towards the front until it is one of the early ones.
  induction n using Nat.strongRecOn generalizing j b' w with
  | ind n ih =>
    by_cases early : n < max i k + 1
    · exact ⟨j,b'.name,name_mem_take boundY early,reached⟩
    · have before : i < n := by omega
      obtain ⟨_,origin⟩ := (evaluates.yields n b' w boundY valueY).2.origin freeNames_coverParts evaluates.known
      obtain ⟨old,other⟩ := (evaluates.fresh cells below boundY).named b.name v c
        (valueBefore_of_position names bound value before) inV
      rcases origin c inW with ⟨new,_⟩ | own | ⟨z,listed,w',held,inW'⟩
      · omega
      · exact absurd own other
      · obtain ⟨n',earlier,b'',boundZ,rfl,valueZ⟩ := valueBefore_position held
        have again : form.ReachedAfter values v k n b''.name := by
          refine ⟨by omega,inside.le,name_mem_take boundZ earlier,?_,w',valueOf_before held,c,inV,inW'⟩
          rw [statement,boundY]
          exact ⟨depth,listed⟩
        exact ih n' earlier w' inW' (by omega) b'' boundZ valueZ again (valueOf_before held)

end LetForm

/-- No cell of a tree freed before the body is reached later on exactly if none is through a name
bound by then that is not tracked to the tree, or that stands too deep to be seen. -/
theorem Plans.tree_unreached_iff {d : Datum} {form : LetForm} {start fuel level : Nat}
    {store store' : Store} {values planned : List Value} {staged : Bool} {known : Table Shape}
    (read : LetForm.ofValue (Value.ofDatum d start).1 = .ok form) (kind : form.kind = .plain)
    (plain : form.IsPlain) (ready : Ready store level [] fun _ => none)
    (stored : (Value.ofDatum d start).2 ≤ store.next)
    (ran : Ran (Eval.bindEach (eval fuel) level [] false form.bindings) store (values,staged)
      store') {i k : Nat} {b : Binding} {p : BindingPlan} {v : Value}
    (bound : form.bindings[i]? = some b) (value : values[i]? = some v)
    (listed : p ∈ ofForm form planned (Analysis.ofForm form known {}) {}) (named : p.name = b.name)
    (freed : p.release.freedAfter? i = some k) :
    (∀ j y, ¬ form.ReachedAfter values v k j y) ↔
      ∀ j y, y ∈ form.names.take (max i k + 1) →
        (Analysis.ofForm form known {}).ownership.tracks b.name y = false ∨
          y ∉ freeNames ({} : Options).analysisDepth [] [] (form.statement j) →
        ¬ form.ReachedAfter values v k j y := by
  constructor
  · intro unreached j y _ _
    exact unreached j y
  · intro overlooked j y reached
    obtain ⟨distinct,nodup,marks,evaluates,below⟩ :=
      LetForm.evaluates_of_read read plain ready stored ran
    obtain ⟨j,y,early,reached⟩ := evaluates.reached_early distinct nodup below bound value reached
    have declared : b.name ∈ form.names := mem_of_getElem? (LetForm.name_at bound)
    by_cases tracked : (Analysis.ofForm form known {}).ownership.tracks b.name y = false
    · exact overlooked j y early (.inl tracked) reached
    by_cases seen : y ∉ freeNames ({} : Options).analysisDepth [] [] (form.statement j)
    · exact overlooked j y early (.inr seen) reached
    -- The analysis knows of the mention, so the storage is needed until then.
    obtain ⟨own,freed⟩ := freed_cases listed freed
    rw [named] at own freed
    have needed := Analysis.needed_until_mention kind (by decide) (by decide) own declared
      (by simpa using tracked) reached.inside reached.bound (not_not.mp seen)
    rcases freed with last | ⟨rfl,unused⟩
    · have later := reached.later
      rw [last,Ownership.rank] at needed
      omega
    · cases point : (Analysis.ofForm form known {}).ownership.releasePoint? b.name with
      | none =>
        rw [point] at needed
        exact absurd needed (Nat.not_succ_le_zero j)
      | some m =>
        obtain ⟨n,inside,visible,mentioned,deep⟩ := Analysis.mention_of_needed kind distinct plain
          (by decide) unused declared point
        have later : k < n := by
          by_contra before
          have sub := take_subset_take_left form.names (le_of_not_gt before)
          exact LetForm.name_new bound distinct (sub visible)
        have held := LetForm.valueOf_before
          (LetForm.valueBefore_of_position distinct bound value k.lt_succ_self)
        obtain ⟨_,_,c,inV,_⟩ := reached.shared
        exact overlooked n b.name (LetForm.name_mem_take bound (by omega)) (.inr deep)
          ⟨later,inside,visible,mentioned,v,held,c,inV,inV⟩

/-- `(let ((x (quote ((1 2) 3))) (y (cons (car x) 5))) y)` -/
def held : Datum :=
  .ofList [.sym "let",
    .ofList [
      .ofList [.sym "x",.ofList [.sym "quote",.ofList [.ofList [.int 1,.int 2],.int 3]]],
      .ofList [.sym "y",.ofList [.sym "cons",.ofList [.sym "car",.sym "x"],.int 5]]],
    .sym "y"]

def heldForm : LetForm where
  kind := .plain
  bindings := [
    ⟨"x",.pair 5 (.sym "quote") (.pair 4 (.pair 3 (.pair 1 (.int 1) (.pair 0 (.int 2) .nil))
      (.pair 2 (.int 3) .nil)) .nil)⟩,
    ⟨"y",.pair 12 (.sym "cons") (.pair 11 (.pair 9 (.sym "car") (.pair 8 (.sym "x") .nil))
      (.pair 10 (.int 5) .nil))⟩]
  body := .sym "y"

def heldValues : List Value :=
  let part := .pair 1 (.int 1) (.pair 0 (.int 2) .nil)
  [.pair 3 part (.pair 2 (.int 3) .nil),.pair 20 part (.int 5)]

theorem heldForm_plain : heldForm.IsPlain := by
  intro i b found
  match i with
  | 0 =>
    cases found
    exact .quote rfl rfl
  | 1 =>
    cases found
    have name : Plain (heldForm.names.take 1) (.sym "x") := .name (by decide)
    have part : Plain (heldForm.names.take 1) (.pair 9 (.sym "car") (.pair 8 (.sym "x") .nil)) :=
      .call .car rfl (by simpa using name)
    exact .call .cons rfl (by simpa using ⟨part,.int 5⟩)
  | i + 2 => cases found

theorem heldForm_freed : ∃ p ∈ Plans.ofForm heldForm heldValues (Analysis.ofForm heldForm [] {}) {},
    p.name = "x" ∧ p.release.freedAfter? 0 = some 1 := by
  have listed : ("x",some 1) ∈
      (Plans.ofForm heldForm heldValues (Analysis.ofForm heldForm [] {}) {}).map
        fun p : BindingPlan => (p.name,p.release.freedAfter? 0) := by decide +kernel
  obtain ⟨p,member,same⟩ := mem_map.mp listed
  rw [Prod.mk.injEq] at same
  exact ⟨p,member,same⟩

/-- The value of `x` is freed after the second binding, although that one keeps a part of it, which
the body reads. -/
theorem Plans.freed_tree_reached :
    LetForm.ofValue (Value.ofDatum held 0).1 = .ok heldForm ∧ heldForm.IsPlain ∧
      (∃ p ∈ ofForm heldForm heldValues (Analysis.ofForm heldForm [] {}) {},
        p.name = "x" ∧ p.release.freedAfter? 0 = some 1) ∧
      ∃ x store, Ran (Eval.bindEach (eval 4) 0 [] false heldForm.bindings)
        { (Store.addRoot {}).2 with next := (Value.ofDatum held 0).2 } (heldValues,false) store ∧
        heldValues[0]? = some x ∧ heldForm.ReachedAfter heldValues x 1 2 "y" := by
  refine ⟨rfl,heldForm_plain,heldForm_freed,_,_,rfl,rfl,by decide,by decide,by decide,?_,?_⟩
  · exact ⟨1,by decide⟩
  · exact ⟨.pair 20 _ (.int 5),rfl,1,by decide,by decide⟩

theorem Plans.held_tree_unreached_iff :
    (Analysis.ofForm heldForm [] {}).ownership.tracks "x" "y" = false ∧
      ∃ p ∈ ofForm heldForm heldValues (Analysis.ofForm heldForm [] {}) {},
        p.name = "x" ∧ p.release.freedAfter? 0 = some 1 ∧
        ∀ x, heldValues[0]? = some x → ((∀ j y, ¬ heldForm.ReachedAfter heldValues x 1 j y) ↔
          ∀ j y, y ∈ heldForm.names.take 2 →
            (Analysis.ofForm heldForm [] {}).ownership.tracks "x" y = false ∨
              y ∉ freeNames ({} : Options).analysisDepth [] [] (heldForm.statement j) →
            ¬ heldForm.ReachedAfter heldValues x 1 j y) := by
  refine ⟨by decide,?_⟩
  obtain ⟨p,listed,named,freed⟩ := heldForm_freed
  refine ⟨p,listed,named,freed,?_⟩
  intro x value
  have read : LetForm.ofValue (Value.ofDatum held 0).1 = .ok heldForm := rfl
  have bound : heldForm.bindings[0]? = some heldForm.bindings[0] := rfl
  obtain ⟨store,ran⟩ : ∃ store, Ran (Eval.bindEach (eval 4) 0 [] false heldForm.bindings)
      { (Store.addRoot {}).2 with next := (Value.ofDatum held 0).2 } (heldValues,false) store :=
    ⟨_,rfl⟩
  exact tree_unreached_iff read rfl heldForm_plain (root_ready _) le_rfl ran bound value
    listed named freed

end StagedLisp
