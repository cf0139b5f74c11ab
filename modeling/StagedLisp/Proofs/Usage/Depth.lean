import StagedLisp.Proofs.Usage.Tally

/-! Limits on the depth of the walks. Every name that is mentioned in a part nested too deep is taken to be
used in the worst way. The search for these names does not know about binders: it takes a binding with the
name `quote` for a quotation and overlooks the names in its initialiser. It overlooks no others, and so a
smaller limit can only make the usage of a name worse unless it is overlooked. -/
namespace StagedLisp

open List View Value Option

section Mentions

variable {e part : Value} {x : String} {items : List Value}

theorem mem_mentionedNames : x ∈ mentionedNames e ↔ x ∈ occurrences e := by
  rw [mentionedNames,mem_foldl_names (fun found y => by simp [mem_addName])]
  simp [mem_addName]

theorem mem_spineOccurrences : x ∈ spineOccurrences e ↔ ∃ part ∈ e.elements, x ∈ occurrences part := by
  induction e with
  | pair cell head tail _ ih => simp [spineOccurrences,elements,ih,or_comm]
  | _ => simp [spineOccurrences,elements]

theorem elements_of_items (listed : e.items? = some items) : e.elements = items := by
  induction e generalizing items with
  | nil => cases listed; rfl
  | pair cell head tail _ ih =>
    obtain ⟨rest,found,rfl⟩ := map_eq_some_iff.mp listed
    rw [elements,ih found]
  | _ => cases listed

theorem mentioned_of_item (listed : e.items? = some items) (member : part ∈ items)
    (unquoted : items.head?.bind symbol? ≠ some "quote")
    (mentioned : x ∈ mentionedNames part) : x ∈ mentionedNames e := by
  rw [mem_mentionedNames] at mentioned ⊢
  cases e with
  | pair cell head tail =>
    obtain ⟨rest,found,rfl⟩ := map_eq_some_iff.mp listed
    have evaluated : head.symbol? ≠ some "quote" := unquoted
    rw [occurrences,if_neg (by simpa using evaluated),mem_append,mem_spineOccurrences,elements_of_items found]
    rcases mem_cons.mp member with rfl | later
    · exact .inr mentioned
    · exact .inl ⟨part,later,mentioned⟩
  | nil => cases listed; cases member
  | _ => cases listed

end Mentions

/-- The search for mentioned names overlooks the name: it is mentioned in the initialiser of a binding
called `quote`, where it is not bound by the expression. -/
inductive Overlooks (x : String) : Value → Prop where
  | here {e inner i b} (shown : of? e = some (.binding inner)) (bound : inner.bindings[i]? = some b)
      (quote : b.name = "quote") (free : x ∉ inner.visibleIn i)
      (mentioned : x ∈ mentionedNames b.init) : Overlooks x e
  | inside {e v} (visited : v ∈ e.visits) (free : x ∉ v.names) (within : Overlooks x v.part) : Overlooks x e

section Visits

variable {e part : Value} {v : Visit} {x : String}

theorem View.ofItems_quote {head : Value} {rest : List Value} (quote : head.symbol? = some "quote") :
    ofItems (head :: rest) = .inert "quote" := by
  cases head with
  | sym name =>
    cases quote
    rfl
  | _ => cases quote

/-- What an item of a form mentions the form mentions, unless nothing in it is evaluated. -/
theorem mentioned_of_formItem {items : List Value} (found : e.formItems? = some items)
    (evaluated : ∀ keyword, View.ofItems items ≠ .inert keyword) (member : part ∈ items)
    (mentioned : x ∈ mentionedNames part) : x ∈ mentionedNames e := by
  obtain ⟨listed,head,rest,rfl⟩ := formItems_head found
  exact mentioned_of_item listed member (fun quote => evaluated _ (View.ofItems_quote quote)) mentioned

theorem mentioned_of_statement {inner : LetForm} {i : Nat} (shown : of? e = some (.binding inner))
    (found : inner.statements[i]? = some part) (free : x ∉ inner.visibleIn i)
    (mentioned : x ∈ mentionedNames part) : x ∈ mentionedNames e ∨ Overlooks x e := by
  obtain ⟨items,listed,view⟩ := map_eq_some_iff.mp shown
  obtain ⟨kind,parts,rfl,read⟩ := ofItems_shows view
  obtain ⟨list,entries,rfl,entered,forms,bound⟩ := LetForm.ofParts_entries read
  have item {part : Value} (member : part ∈ [list,inner.body]) (mentioned : x ∈ mentionedNames part) :
      x ∈ mentionedNames e :=
    mentioned_of_formItem listed (by simp [view]) (.tail _ member) mentioned
  rw [LetForm.statements,getElem?_append] at found
  split at found
  · rw [getElem?_map] at found
    obtain ⟨b,there,rfl⟩ := map_eq_some_iff.mp found
    by_cases quote : b.name = "quote"
    · exact .inr (.here shown there quote free mentioned)
    · obtain ⟨entry,among,items⟩ := bound b (mem_of_getElem? there)
      have inEntry := mentioned_of_item items (by simp) (by simpa [symbol?] using quote) mentioned
      have unquoted : entries.head?.bind symbol? ≠ some "quote" := by
        cases entries with
        | nil => cases among
        | cons first others => simp [forms first mem_cons_self]
      exact .inl (item (by simp) (mentioned_of_item entered among unquoted inEntry))
  · cases mem_singleton.mp (mem_of_getElem? found)
    exact .inl (item (by simp) mentioned)

/-- A name mentioned in a part that is visited is mentioned in the whole or overlooked. -/
theorem mentioned_of_visit (visited : v ∈ e.visits) (free : x ∉ v.names)
    (mentioned : x ∈ mentionedNames v.part) : x ∈ mentionedNames e ∨ Overlooks x e := by
  unfold visits at visited
  cases found : e.formItems? with
  | none => simp [found] at visited
  | some items =>
    simp only [found] at visited
    obtain ⟨_,head,rest,rfl⟩ := formItems_head found
    -- Every part that is visited is an item, apart from the initialisers of a form.
    have each (evaluated : ∀ keyword, View.ofItems (head :: rest) ≠ .inert keyword)
        {parts : List Value} (items : ∀ part ∈ parts, part ∈ head :: rest)
        (visited : v ∈ parts.map fun part => ({ part } : Visit)) :
        x ∈ mentionedNames e ∨ Overlooks x e := by
      obtain ⟨part,member,rfl⟩ := mem_map.mp visited
      exact .inl (mentioned_of_formItem found evaluated (items part member) mentioned)
    cases view : View.ofItems (head :: rest) with
    | inert => simp [view] at visited
    | lambda params body =>
      simp only [view,mem_singleton] at visited
      obtain ⟨list,same⟩ := ofItems_shows view
      cases visited
      exact .inl (mentioned_of_formItem found (by simp [view]) (by simp [same]) mentioned)
    | binding inner =>
      simp only [view] at visited
      obtain ⟨⟨part,index⟩,member,rfl⟩ := mem_map.mp visited
      have shown : of? e = some (.binding inner) := by rw [of?_items found,view]
      exact mentioned_of_statement shown (mem_zipIdx_iff_getElem?.mp member) free mentioned
    | setMeta handler =>
      have inside : ([] : List String) = [] ∧ handler ∈ head :: rest :=
        parts_items (by simp [view,parts]) (by simp [view]) (by simp [view])
      simp only [view] at visited
      exact each (by simp [view]) (by simpa using inside.2) visited
    | scan operand =>
      have inside : ([] : List String) = [] ∧ operand ∈ head :: rest :=
        parts_items (by simp [view,parts]) (by simp [view]) (by simp [view])
      simp only [view] at visited
      split at visited
      · exact each (by simp [view]) (by simpa using inside.2) visited
      · exact each (by simp [view]) (fun _ => id) visited
    | misfit keyword parts =>
      obtain ⟨rfl,rfl⟩ := List.cons.inj (ofItems_shows view)
      simp only [view] at visited
      split at visited
      · exact each (by simp [view]) (fun _ => mem_cons_of_mem _) visited
      · exact each (by simp [view]) (fun _ => id) visited
    | conditional | assign | wrapper | call =>
      simp only [view] at visited
      exact each (by simp [view]) (fun _ => id) visited

end Visits

/-- The parts that walks of the given depth leave out, each with the names bound around it. -/
def leftOut : Nat → List String → Value → List (List String × Value)
  | 0,names,e => [(names,e)]
  | budget + 1,names,e => e.visits.flatMap fun v => leftOut budget (names ++ v.names) v.part

/-- The parts that the analysis of a form leaves out, each with the names that it does not see. -/
def LetForm.leftOut (form : LetForm) (depth : Nat) : List (List String × Value) :=
  form.statements.zipIdx.flatMap fun (e,i) => StagedLisp.leftOut depth (Tally.hiddenIn form i) e

/-- Where one of the parts overlooks the name, it mentions it elsewhere. -/
def Noticed (x : String) (parts : List (List String × Value)) : Prop :=
  ∀ part ∈ parts, x ∉ part.1 → Overlooks x part.2 → x ∈ mentionedNames part.2

variable {hidden : List String}

theorem Noticed.visit {x : String} {budget : Nat} {e : Value} {v : Visit}
    (noticed : Noticed x (leftOut (budget + 1) hidden e)) (visited : v ∈ e.visits) :
    Noticed x (leftOut budget (hidden ++ v.names) v.part) :=
  fun part listed => noticed part (mem_flatMap.mpr ⟨v,visited,listed⟩)

/-- The name occurs nowhere in the expression, or is bound around it. -/
def Apart (x : String) (hidden : List String) (e : Value) : Prop :=
  x ∈ hidden ∨ x ∉ mentionedNames e ∧ ¬ Overlooks x e

theorem Apart.visit {x : String} {e : Value} {v : Visit} (apart : Apart x hidden e)
    (visited : v ∈ e.visits) : Apart x (hidden ++ v.names) v.part := by
  by_cases free : x ∈ hidden ++ v.names
  · exact .inl free
  · rw [mem_append,not_or] at free
    obtain ⟨silent,seen⟩ := apart.resolve_left free.1
    refine .inr ⟨fun mentioned => ?_,fun overlooks => seen (.inside visited free.2 overlooks)⟩
    exact (mentioned_of_visit visited free.2 mentioned).elim silent seen

theorem Apart.symbol {x y : String} (apart : Apart x hidden (.sym y)) (same : x = y) : x ∈ hidden :=
  apart.resolve_right fun other => other.1 (mem_mentionedNames.mpr (same ▸ mem_cons_self))

namespace Usage

/-- The name is captured, used and escapes everywhere. -/
structure Worst (u : Usage) : Prop where
  escape : u.escape = .everywhere
  captured : u.captured = true
  used : 0 < u.uses

/-- Whatever the second usage says against the name the first one says too. -/
structure Covers (u u' : Usage) : Prop where
  escape : u'.escape.rank ≤ u.escape.rank
  captured : u'.captured = true → u.captured = true
  outlives : u'.captured = true ∨ u'.stored = true ∨ u'.escape = .everywhere →
    u.captured = true ∨ u.stored = true ∨ u.escape = .everywhere
  unused : u.uses = 0 → u'.uses = 0

theorem Covers.refl (u : Usage) : u.Covers u := ⟨le_rfl,id,id,id⟩

theorem Worst.covers {u : Usage} (worst : u.Worst) (u' : Usage) : u.Covers u' where
  escape := by
    rw [worst.escape]
    cases u'.escape <;> decide
  captured _ := worst.captured
  outlives _ := .inl worst.captured
  unused none := absurd none worst.used.ne'

end Usage

namespace Tally

/-- A change of usages that keeps names and makes nothing better. -/
structure Raises (f : Usage → Usage) : Prop where
  named : ∀ u, (f u).name = u.name
  worst : ∀ u, u.Worst → (f u).Worst

theorem skip_raises (depth : Nat) : Raises fun u => { u with
    escape := .everywhere, captured := true, uses := u.uses + 1, lastDepth := depth } :=
  ⟨fun _ => rfl,fun _ _ => ⟨rfl,rfl,Nat.succ_pos _⟩⟩

theorem count_raises (depth : Nat) (inBody : Bool) : Raises fun u => { u with
    uses := u.uses + 1, lastDepth := depth, captured := u.captured || inBody } :=
  ⟨fun _ => rfl,fun _ worst => ⟨worst.escape,by simp [worst.captured],Nat.succ_pos _⟩⟩

theorem spread_raises (outer : Escape) : Raises fun u => { u with escape := u.escape.join outer } := by
  refine ⟨fun _ => rfl,fun u worst => ⟨?_,worst.captured,worst.used⟩⟩
  rw [worst.escape]
  cases outer <;> rfl

theorem store_raises : Raises fun u => { u with stored := true } :=
  ⟨fun _ => rfl,fun _ worst => ⟨worst.escape,worst.captured,worst.used⟩⟩

/-- The name, if it is tracked, is used in the worst way. -/
def Spoiled (t : Tally) (x : String) : Prop := ∀ u, t.usage? x = some u → u.Worst

/-- In the first tally the name is used in the worst way, or just as in the second. -/
def Degrades (x : String) (t t' : Tally) : Prop := t.Spoiled x ∨ t.usage? x = t'.usage? x

variable {t t' : Tally} {x : String} {hidden : List String} {f : Usage → Usage}

theorem Spoiled.update (spoiled : t.Spoiled x) (raises : Raises f) (y : String) :
    (t.update hidden y f).Spoiled x := by
  intro u changed
  rw [usage?_update raises.named] at changed
  split at changed
  · obtain ⟨v,found,rfl⟩ := map_eq_some_iff.mp changed
    exact raises.worst v (spoiled v found)
  · exact spoiled u changed

namespace Degrades

theorem update (degrades : Degrades x t t') {f : Usage → Usage} (raises : Raises f) (y : String) :
    Degrades x (t.update hidden y f) (t'.update hidden y f) := by
  refine degrades.imp (fun spoiled => spoiled.update raises y) fun same => ?_
  rw [usage?_update raises.named,usage?_update raises.named,same]

theorem foldl {α : Type} {step step' : Tally → α → Tally} {parts : List α}
    (steps : ∀ a ∈ parts, ∀ t t', Degrades x t t' → Degrades x (step t a) (step' t' a))
    (degrades : Degrades x t t') : Degrades x (parts.foldl step t) (parts.foldl step' t') := by
  induction parts generalizing t t' with
  | nil => exact degrades
  | cons a parts ih =>
    obtain ⟨first,rest⟩ := forall_mem_cons.mp steps
    exact ih rest (first t t' degrades)

theorem store (degrades : Degrades x t t') (p : Position) : Degrades x (store hidden t p) (store hidden t' p) := by
  unfold Tally.store
  split
  · split
    · exact degrades.update store_raises _
    · exact degrades
  · exact degrades

end Degrades

theorem foldl_usage {α : Type} {step : Tally → α → Tally} {parts : List α}
    (steps : ∀ a ∈ parts, ∀ t, (step t a).usage? x = t.usage? x) :
    (parts.foldl step t).usage? x = t.usage? x := by
  induction parts generalizing t with
  | nil => rfl
  | cons a parts ih =>
    obtain ⟨first,rest⟩ := forall_mem_cons.mp steps
    rw [foldl_cons,ih rest,first]

theorem update_usage (raises : Raises f) {y : String} (other : x = y → x ∈ hidden) :
    (t.update hidden y f).usage? x = t.usage? x := by
  rw [usage?_update raises.named]
  refine if_neg ?_
  rintro ⟨rfl,free⟩
  exact free (other rfl)

section Skip

variable {depth : Nat} {part : Value}

theorem skip_usage (apart : x ∈ hidden ∨ x ∉ mentionedNames part) :
    (t.skip hidden depth part).usage? x = t.usage? x := by
  refine foldl_usage fun y listed t => update_usage (skip_raises depth) ?_
  rintro rfl
  exact apart.resolve_right fun silent => silent listed

theorem skip_spoiled (free : x ∉ hidden) (mentioned : x ∈ mentionedNames part) :
    (t.skip hidden depth part).Spoiled x := by
  refine foldl_reaches (P := (Spoiled · x)) (fun t y spoiled => spoiled.update (skip_raises depth) y)
    mentioned fun t u changed => ?_
  rw [usage?_update (skip_raises depth).named,if_pos ⟨rfl,free⟩] at changed
  obtain ⟨v,_,rfl⟩ := map_eq_some_iff.mp changed
  exact ⟨rfl,rfl,Nat.succ_pos _⟩

end Skip

section Walks

variable {budget budget' depth : Nat} {inBody : Bool} {outer : Escape} {e : Value}

theorem count_usage (apart : Apart x hidden e) : (count budget depth inBody hidden t e).usage? x = t.usage? x := by
  induction budget generalizing depth inBody hidden t e with
  | zero => exact skip_usage (apart.imp_right And.left)
  | succ budget ih =>
    cases form : e.symbol? with
    | none =>
      rw [count_form budget depth inBody form]
      exact foldl_usage fun v visited t => ih (apart.visit visited)
    | some y =>
      obtain rfl := eq_sym form
      exact update_usage (count_raises depth inBody) apart.symbol

theorem spread_usage (apart : Apart x hidden e) : (spread budget depth hidden outer t e).usage? x = t.usage? x := by
  induction budget generalizing depth hidden outer t e with
  | zero => exact skip_usage (apart.imp_right And.left)
  | succ budget ih =>
    cases form : e.symbol? with
    | none =>
      rw [spread_form budget depth outer form]
      refine foldl_usage fun p listed t => ?_
      obtain ⟨v,visited,names,part⟩ := visit_of_position listed
      have inner := apart.visit visited
      rw [names,part] at inner
      rw [ih inner]
      unfold store
      split
      · next y same =>
        split
        · rw [same] at inner
          exact update_usage store_raises inner.symbol
        · rfl
      · rfl
    | some y =>
      obtain rfl := eq_sym form
      exact update_usage (spread_raises outer) apart.symbol

theorem skip_degrades (noticed : Noticed x [(hidden,e)]) (degrades : Degrades x t t')
    (deeper : Tally) (kept : Apart x hidden e → deeper.usage? x = t'.usage? x) :
    Degrades x (t.skip hidden depth e) deeper := by
  by_cases free : x ∈ hidden
  · unfold Degrades Spoiled
    rw [skip_usage (.inl free),kept (.inl free)]
    exact degrades
  · by_cases mentioned : x ∈ mentionedNames e
    · exact .inl (skip_spoiled free mentioned)
    · have seen : ¬ Overlooks x e := fun overlooks =>
        mentioned (noticed _ mem_cons_self free overlooks)
      unfold Degrades Spoiled
      rw [skip_usage (.inr mentioned),kept (.inr ⟨mentioned,seen⟩)]
      exact degrades

variable (shallower : budget ≤ budget') (noticed : Noticed x (leftOut budget hidden e)) (degrades : Degrades x t t')

include shallower noticed degrades

theorem count_degrades :
    Degrades x (count budget depth inBody hidden t e) (count budget' depth inBody hidden t' e) := by
  induction budget generalizing budget' depth inBody hidden t t' e with
  | zero => exact skip_degrades noticed degrades _ fun apart => count_usage apart
  | succ budget ih =>
    obtain ⟨budget',rfl⟩ : ∃ k, budget' = k + 1 := ⟨budget' - 1,by omega⟩
    cases form : e.symbol? with
    | none =>
      rw [count_form budget depth inBody form,count_form budget' depth inBody form]
      exact .foldl (fun v visited t t' => ih (by omega) (noticed.visit visited)) degrades
    | some y =>
      obtain rfl := eq_sym form
      exact degrades.update (count_raises depth inBody) y

theorem spread_degrades :
    Degrades x (spread budget depth hidden outer t e) (spread budget' depth hidden outer t' e) := by
  induction budget generalizing budget' depth hidden outer t t' e with
  | zero => exact skip_degrades noticed degrades _ fun apart => spread_usage apart
  | succ budget ih =>
    obtain ⟨budget',rfl⟩ : ∃ k, budget' = k + 1 := ⟨budget' - 1,by omega⟩
    cases form : e.symbol? with
    | none =>
      rw [spread_form budget depth outer form,spread_form budget' depth outer form]
      refine .foldl (fun p listed t t' degrades => ?_) degrades
      obtain ⟨v,visited,names,part⟩ := visit_of_position listed
      have inner := noticed.visit visited
      rw [names,part] at inner
      exact ih (by omega) inner (degrades.store p)
    | some y =>
      obtain rfl := eq_sym form
      exact degrades.update (spread_raises outer) y

end Walks

section Form

variable {form : LetForm} {depth depth' : Nat} {names : List String} {part : Value}

theorem ofForm_degrades (shallower : depth ≤ depth') (noticed : Noticed x (form.leftOut depth)) :
    Degrades x (ofForm form depth) (ofForm form depth') := by
  have statement (entry : Value × Nat) (member : entry ∈ form.statements.zipIdx) :
      Noticed x (leftOut depth (hiddenIn form entry.2) entry.1) :=
    fun part listed => noticed part (mem_flatMap.mpr ⟨entry,member,listed⟩)
  refine .foldl (fun entry member t t' => spread_degrades shallower (statement entry member)) ?_
  exact .foldl (fun entry member t t' => count_degrades shallower (statement entry member)) (.inr rfl)

theorem ofForm_tracked (bound : x ∈ form.names) (depth : Nat) : ((ofForm form depth).usage? x).isSome := by
  have lasting := tracked_lasting x
  refine foldl_keeps (P := fun t => (t.usage? x).isSome) (fun _ _ kept => lasting.spread depth kept) _ ?_
  refine foldl_keeps (P := fun t => (t.usage? x).isSome) (fun _ _ kept => lasting.count depth kept) _ ?_
  exact tracking_tracked bound

/-- A deeper walk comes to the initialiser in which a name is overlooked. -/
theorem used_of_overlooks {e : Value} (overlooks : Overlooks x e) : ∃ more, ∀ depth inBody hidden t,
    x ∉ hidden → (count more depth inBody hidden t e).Used x := by
  induction overlooks with
  | @here e inner i b shown bound quote free mentioned =>
    obtain ⟨items,found,view⟩ := map_eq_some_iff.mp shown
    have visited : { names := inner.visibleIn i, part := b.init } ∈ e.visits := by
      unfold visits
      simp only [found,view]
      refine mem_map.mpr ⟨(b.init,i),?_,rfl⟩
      exact mem_zipIdx_iff_getElem?.mpr (LetForm.init_at bound)
    refine ⟨1,fun depth inBody hidden t outside => (used_lasting x).count_visit visited fun inBody t => ?_⟩
    exact skip_used (by simp [outside,free]) mentioned
  | inside visited free within ih =>
    obtain ⟨more,reaches⟩ := ih
    refine ⟨more + 1,fun depth inBody hidden t outside => (used_lasting x).count_visit visited fun inBody t => ?_⟩
    exact reaches _ _ _ _ (by simp [outside,free])

/-- A deeper walk goes on with the parts that another one leaves out. -/
theorem count_leftOut {budget more : Nat} {e : Value} (listed : (names,part) ∈ leftOut budget hidden e)
    (reaches : ∀ depth inBody t, (count more depth inBody names t part).Used x) (depth : Nat)
    (inBody : Bool) (t : Tally) : (count (budget + more) depth inBody hidden t e).Used x := by
  induction budget generalizing hidden e depth inBody t with
  | zero =>
    cases mem_singleton.mp listed
    rw [Nat.zero_add]
    exact reaches depth inBody t
  | succ budget ih =>
    obtain ⟨v,visited,inside⟩ := mem_flatMap.mp listed
    rw [Nat.add_right_comm]
    exact (used_lasting x).count_visit visited fun inBody t => ih inside _ inBody t

/-- A name that a part left out overlooks is counted by some deeper analysis. -/
theorem ofForm_overlooked (listed : (names,part) ∈ form.leftOut depth) (free : x ∉ names)
    (overlooks : Overlooks x part) : ∃ depth' ≥ depth, (ofForm form depth').Used x := by
  obtain ⟨⟨e,j⟩,member,inside⟩ := mem_flatMap.mp listed
  obtain ⟨more,reaches⟩ := used_of_overlooks overlooks
  obtain ⟨within,rfl⟩ := LetForm.mem_zipIdx.mp member
  refine ⟨depth + more,Nat.le_add_right _ _,(used_lasting x).ofForm within fun t => ?_⟩
  exact count_leftOut inside (fun depth inBody t => reaches depth inBody names t free) 1 false t

/-- A smaller limit makes the usage of a binding only worse if the parts that it leaves out mention the
binding wherever they overlook it. A binding that is unused under a limit stays covered under all larger
ones exactly if no part that is left out overlooks it. -/
theorem usage_covered (form : LetForm) (depth : Nat) {x : String} (bound : x ∈ form.names) :
    ∃ u, (ofForm form depth).usage? x = some u ∧
      (Noticed x (form.leftOut depth) → ∀ depth' ≥ depth,
        ∃ u', (ofForm form depth').usage? x = some u' ∧ u.Covers u') ∧
      (u.uses = 0 →
        ((∀ depth' ≥ depth, ∃ u', (ofForm form depth').usage? x = some u' ∧ u.Covers u') ↔
          ∀ part ∈ form.leftOut depth, x ∉ part.1 → ¬ Overlooks x part.2)) := by
  obtain ⟨u,found⟩ := Option.isSome_iff_exists.mp (ofForm_tracked bound depth)
  have covers (noticed : Noticed x (form.leftOut depth)) (depth' : Nat) (deeper : depth ≤ depth') :
      ∃ u', (ofForm form depth').usage? x = some u' ∧ u.Covers u' := by
    obtain ⟨u',found'⟩ := Option.isSome_iff_exists.mp (ofForm_tracked bound depth')
    refine ⟨u',found',?_⟩
    rcases ofForm_degrades deeper noticed with worst | same
    · exact (worst u found).covers u'
    · rw [found,found'] at same
      exact Option.some.inj same ▸ .refl u
  refine ⟨u,found,covers,fun unused => ⟨fun covered part listed free overlooks => ?_,fun seen => ?_⟩⟩
  · obtain ⟨depth',deeper,used⟩ := ofForm_overlooked listed free overlooks
    obtain ⟨u',found',cover⟩ := covered depth' deeper
    have none : ((ofForm form depth').usage? x).any (·.uses == 0) := by
      simp [found',cover.unused unused]
    exact not_used none used
  · exact covers fun part listed free overlooks => absurd overlooks (seen part listed free)

/-- `(let ((x 1)) (car (let ((y (lambda () x))) 2)))`, with the given name for `y`. -/
def closureForm (y : String) : LetForm where
  kind := .plain
  bindings := [⟨"x",.int 1⟩]
  body := .pair 11 (.sym "car") (.pair 10 (.pair 9 (.sym "let") (.pair 8
    (.pair 7 (.pair 6 (.sym y) (.pair 5 (.pair 4 (.sym "lambda") (.pair 3 .nil
      (.pair 2 (.sym "x") .nil))) .nil)) .nil) (.pair 1 (.int 2) .nil))) .nil)

/-- A closure in a part that is left out is overlooked if it is bound to the name `quote`: the value that it
captures is taken to be unused and to stay inside. -/
theorem closure_overlooked : "x" ∈ (closureForm "quote").names ∧
    (ofForm (closureForm "quote") 1).usage? "x" = some { name := "x" } ∧
    ((ofForm (closureForm "quote") 9).usage? "x").any fun u =>
      u.captured && u.escape == .everywhere && u.uses == 1 := by
  decide +kernel

/-- Under another name the closure is noticed. -/
theorem closure_covered : "x" ∈ (closureForm "y").names ∧ ∃ u,
    (ofForm (closureForm "y") 1).usage? "x" = some u ∧ u.captured = true ∧ ∀ depth' ≥ 1,
      ∃ u', (ofForm (closureForm "y") depth').usage? "x" = some u' ∧ u.Covers u' := by
  have bound : "x" ∈ (closureForm "y").names := by decide
  obtain ⟨u,found,covered,_⟩ := usage_covered (closureForm "y") 1 bound
  refine ⟨bound,u,found,?_,covered fun part listed _ overlooks => ?_⟩
  · have captured : ((ofForm (closureForm "y") 1).usage? "x").any (·.captured) := by decide +kernel
    simpa [found] using captured
  · have mentioned : ∀ part ∈ (closureForm "y").leftOut 1,
        part.2.symbol? = some "car" ∨ "x" ∈ mentionedNames part.2 := by decide +kernel
    refine (mentioned part listed).resolve_left fun keyword => ?_
    obtain ⟨names,e⟩ := part
    cases e with
    | sym =>
      cases overlooks with
      | here shown => cases shown
      | inside visited => cases visited
    | _ => cases keyword

end Form

end Tally

end StagedLisp
