import Mathlib.Data.List.Nodup
import Mathlib.Data.List.Perm.Subperm
import StagedLisp.Record.Registry

/-! The search for the fields that close a cycle. Every field it does not report leads to a record
that was finished earlier, so every cycle holds a reported field; as long as no path is too long,
every reported field lies on a cycle. -/
namespace StagedLisp.OwnershipGraph

open List

/-- A walk along fields: the records it leaves, each with the field it takes. -/
inductive Walk {α : Type} (owns : α → String → α → Prop) : α → List (α × String) → α → Prop where
  | here (u : α) : Walk owns u [] u
  | step {u v w field steps} : owns u field v → Walk owns v steps w → Walk owns u ((u,field) :: steps) w

/-- A walk that comes back to the record it starts from. -/
structure IsCycle {α : Type} (owns : α → String → α → Prop) (steps : List (α × String)) : Prop where
  nonempty : steps ≠ []
  closed : ∃ u, Walk owns u steps u

namespace Walk

variable {α β : Type} {owns : α → String → α → Prop} {u v w : α} {field : String} {steps : List (α × String)}

theorem snoc (walk : Walk owns u steps v) (next : owns v field w) : Walk owns u (steps ++ [(v,field)]) w := by
  induction walk with
  | here v => exact .step next (.here w)
  | step first _ ih => exact .step first (ih next)

theorem rest {before after : List (α × String)} (walk : Walk owns u (before ++ (v,field) :: after) w) :
    Walk owns v ((v,field) :: after) w := by
  induction before generalizing u with
  | nil =>
    cases walk with
    | step first rest => exact .step first rest
  | cons _ _ ih =>
    cases walk with
    | step _ rest => exact ih rest

theorem map {owns' : β → String → β → Prop} (f : α → β)
    (kept : ∀ u field v, (u,field) ∈ steps → owns u field v → owns' (f u) field (f v))
    (walk : Walk owns u steps v) :
    Walk owns' (f u) (steps.map fun step => (f step.1,step.2)) (f v) := by
  induction walk with
  | here u => exact .here (f u)
  | step first _ ih =>
    exact .step (kept _ _ _ mem_cons_self first) (ih fun u field v inside => kept u field v (.tail _ inside))

theorem mono {owns' : α → String → α → Prop} (kept : ∀ u field v, owns u field v → owns' u field v)
    (walk : Walk owns u steps v) : Walk owns' u steps v := by
  induction walk with
  | here u => exact .here u
  | step first _ ih => exact .step (kept _ _ _ first) ih

theorem owner (walk : Walk owns u steps w) (inside : (v,field) ∈ steps) : ∃ x, owns v field x := by
  induction walk with
  | here => cases inside
  | step first _ ih =>
    rcases mem_cons.mp inside with same | inside
    · cases same
      exact ⟨_,first⟩
    · exact ih inside

end Walk

/-- The step is part of a cycle that meets no record twice. -/
def OnCycle {α : Type} (owns : α → String → α → Prop) (step : α × String) : Prop :=
  ∃ steps, IsCycle owns steps ∧ (steps.map Prod.fst).Nodup ∧ step ∈ steps

/-- The field of the record at `u` refers to the one at `v`. -/
def Leads (arcs : Array (List Arc)) (u : Nat) (field : String) (v : Nat) : Prop :=
  (field,some v) ∈ arcs.getD u []

namespace Search

theorem visit_mark (s : Search) (node other : Nat) (v : Visit) : (s.mark node v).visit other =
      if other = node ∧ node < s.visits.size then v else s.visit other := by
  unfold visit mark
  simp only [Array.getD_eq_getD_getElem?,Array.getElem?_setIfInBounds]
  by_cases same : node = other
  · subst same
    by_cases inside : node < s.visits.size
    · simp [inside]
    · simp [inside]
  · rw [if_neg same,if_neg fun both => same both.1.symm]

theorem size_mark (s : Search) (node : Nat) (v : Visit) : (s.mark node v).visits.size = s.visits.size :=
  Array.size_setIfInBounds

theorem inside_of_visit {s : Search} {node : Nat} (visit : s.visit node ≠ .finished) : node < s.visits.size := by
  by_contra outside
  apply visit
  simp [Search.visit,Array.getD_eq_getD_getElem?,Array.getElem?_eq_none (Nat.le_of_not_lt outside)]

/-- The search stands at the end of a path, and has finished the nodes of `order` one after the
other. -/
structure Sound (arcs : Array (List Arc)) (path order : List Nat) (s : Search) : Prop where
  size : s.visits.size = arcs.size
  standing : ∀ n, s.visit n = .onPath ↔ n ∈ path
  finished : ∀ n, n ∈ order ↔ n < arcs.size ∧ s.visit n = .finished
  /-- Fields of finished nodes are reported or lead to nodes finished before. -/
  settled : ∀ u ∈ order, ∀ field v, Leads arcs u field v →
    (u,field) ∈ s.closing ∨ v ∈ order ∧ order.idxOf v < order.idxOf u
  closes : arcs.size ≤ pathLimit → ∀ step ∈ s.closing, OnCycle (Leads arcs) step

/-- The search goes on from one state to another and is back on the same path. -/
structure Advances (arcs : Array (List Arc)) (path order : List Nat) (s : Search)
    (order' : List Nat) (s' : Search) : Prop where
  sound : Sound arcs path order' s'
  later : order <+: order'
  closing : s.closing ⊆ s'.closing

/-- The field of the node on top needs no more attention. -/
def Handled (order : List Nat) (s : Search) (node : Nat) (arc : Arc) : Prop :=
  ∀ v, arc.2 = some v → (node,arc.1) ∈ s.closing ∨ v ∈ order

variable {arcs : Array (List Arc)} {path order order' order'' : List Nat} {s s' s'' : Search}
  {node : Nat} {field : String}

theorem Advances.refl (sound : Sound arcs path order s) : Advances arcs path order s order s :=
  ⟨sound,prefix_rfl,fun _ => id⟩

theorem Advances.trans (first : Advances arcs path order s order' s')
    (second : Advances arcs path order' s' order'' s'') :
    Advances arcs path order s order'' s'' :=
  ⟨second.sound,first.later.trans second.later,fun _ member => second.closing (first.closing member)⟩

theorem Handled.advance {arc : Arc} (handled : Handled order s node arc)
    (advances : Advances arcs path order s order' s') : Handled order' s' node arc := by
  intro v leads
  rcases handled v leads with closes | finished
  · exact .inl (advances.closing closes)
  · exact .inr (advances.later.subset finished)

/-- Reporting a field is sound if it lies on a cycle, or if paths may be too long. -/
theorem Sound.close (sound : Sound arcs path order s)
    (cycle : arcs.size ≤ pathLimit → OnCycle (Leads arcs) (node,field)) :
    Advances arcs path order s order (s.close node field) where
  sound := {
    size := sound.size
    standing := sound.standing
    finished := sound.finished
    settled := by
      intro u finished name v leads
      rcases sound.settled u finished name v leads with closes | earlier
      · exact .inl (mem_append_left _ closes)
      · exact .inr earlier
    closes := by
      intro small step member
      rcases mem_append.mp member with old | new
      · exact sound.closes small step old
      · cases mem_singleton.mp new
        exact cycle small }
  later := prefix_rfl
  closing := fun _ member => mem_append_left _ member

theorem Sound.apart (sound : Sound arcs path order s) (unseen : s.visit node = .unseen) : node ∉ path := by
  intro standing
  have onPath := (sound.standing node).mpr standing
  rw [unseen] at onPath
  cases onPath

theorem Sound.enter (sound : Sound arcs path order s) (unseen : s.visit node = .unseen) :
    Sound arcs (node :: path) order (s.mark node .onPath) where
  size := (s.size_mark node _).trans sound.size
  standing := by
    have inside : node < s.visits.size := inside_of_visit (by rw [unseen]; decide)
    intro n
    rw [visit_mark,mem_cons,← sound.standing n]
    by_cases same : n = node
    · simp [same,inside]
    · simp [same]
  finished := by
    intro n
    rw [visit_mark,sound.finished n]
    by_cases same : n = node
    · subst same
      have inside : n < s.visits.size := inside_of_visit (by rw [unseen]; decide)
      simp [unseen,inside]
    · simp [same]
  settled := sound.settled
  closes := sound.closes

theorem Sound.leave (sound : Sound arcs (node :: path) order s) (apart : node ∉ path)
    (handled : ∀ arc ∈ arcs.getD node [], Handled order s node arc) :
    Sound arcs path (order ++ [node]) (s.mark node .finished) := by
  have standing : s.visit node = .onPath := (sound.standing node).mpr mem_cons_self
  have inside : node < s.visits.size := inside_of_visit (by rw [standing]; decide)
  have new : node ∉ order := by
    intro finished
    have done := ((sound.finished node).mp finished).2
    rw [standing] at done
    cases done
  have rank (v : Nat) (finished : v ∈ order) : (order ++ [node]).idxOf v = order.idxOf v :=
    idxOf_append_of_mem finished
  have top : (order ++ [node]).idxOf node = order.length := by
    rw [idxOf_append_of_notMem new,idxOf_cons_self,Nat.add_zero]
  refine ⟨(s.size_mark node _).trans sound.size,?_,?_,?_,sound.closes⟩
  · intro n
    rw [visit_mark]
    by_cases same : n = node
    · simp [same,inside,apart]
    · simp [same,sound.standing n]
  · intro n
    rw [visit_mark,mem_append,mem_singleton,sound.finished n]
    by_cases same : n = node
    · simp [same,inside,← sound.size]
    · simp [same]
  · intro u finished name v leads
    rcases mem_append.mp finished with old | same
    · rcases sound.settled u old name v leads with closes | ⟨seen,earlier⟩
      · exact .inl closes
      · refine .inr ⟨mem_append_left _ seen,?_⟩
        rw [rank v seen,rank u old]
        exact earlier
    · cases mem_singleton.mp same
      rcases handled (name,some v) leads v rfl with closes | seen
      · exact .inl closes
      · refine .inr ⟨mem_append_left _ seen,?_⟩
        rw [rank v seen,top]
        exact idxOf_lt_length_of_mem seen

section Path

/-! The path is the walk that the search has taken from where it started to the node on top. -/

variable {root target : Nat} {trail : List (Nat × String)}

def nodes (trail : List (Nat × String)) : List Nat := (trail.map Prod.fst).reverse

theorem nodes_snoc (trail : List (Nat × String)) (node : Nat) (field : String) :
    nodes (trail ++ [(node,field)]) = node :: nodes trail := by
  simp [nodes]

theorem onCycle_of_back (walk : Walk (Leads arcs) root trail node)
    (simple : (node :: nodes trail).Nodup) (leads : Leads arcs node field target)
    (back : target ∈ node :: nodes trail) : OnCycle (Leads arcs) (node,field) := by
  have whole := walk.snoc leads
  rw [← nodes_snoc trail node field] at simple back
  obtain ⟨⟨owner,name⟩,inside,rfl⟩ := mem_map.mp (mem_reverse.mp back)
  obtain ⟨before,after,split⟩ := append_of_mem inside
  rw [split] at whole
  refine ⟨(owner,name) :: after,⟨cons_ne_nil _ _,owner,whole.rest⟩,?_,?_⟩
  · have distinct := nodup_reverse.mp simple
    rw [split,map_append] at distinct
    exact distinct.of_append_right
  · -- The reported field is the last step of the walk, so it belongs to the part kept.
    have last : (trail ++ [(node,field)]).getLast? = some (node,field) := getLast?_concat
    rw [split,getLast?_append_cons] at last
    exact mem_of_getLast? last

variable {deeper : Search → String → Nat → Search}

theorem follow_advances {arc : Arc} (inside : ∀ u name v, Leads arcs u name v → v < arcs.size)
    (walk : Walk (Leads arcs) root trail node) (simple : (node :: nodes trail).Nodup)
    (explores : ∀ {order s name target}, Sound arcs (node :: nodes trail) order s →
      Leads arcs node name target → s.visit target = .unseen →
      ∃ order', Advances arcs (node :: nodes trail) order s order' (deeper s name target) ∧
        Handled order' (deeper s name target) node (name,some target))
    (sound : Sound arcs (node :: nodes trail) order s) (listed : arc ∈ arcs.getD node []) :
    ∃ order', Advances arcs (node :: nodes trail) order s order' (follow deeper node s arc) ∧
      Handled order' (follow deeper node s arc) node arc := by
  obtain ⟨name,_ | target⟩ := arc
  · exact ⟨order,.refl sound,fun _ none => nomatch none⟩
  · cases visit : s.visit target with
    | unseen =>
      simp only [follow,visit]
      exact explores sound listed visit
    | onPath =>
      simp only [follow,visit]
      have cycle := onCycle_of_back walk simple listed ((sound.standing target).mp visit)
      exact ⟨order,sound.close fun _ => cycle,fun _ _ => .inl (by simp [close])⟩
    | finished =>
      simp only [follow,visit]
      refine ⟨order,.refl sound,fun v same => .inr ?_⟩
      cases same
      exact (sound.finished target).mpr ⟨inside _ _ _ listed,visit⟩

theorem follows_advance {list : List Arc} (step : ∀ {order s}, ∀ arc ∈ list, Sound arcs path order s →
      ∃ order', Advances arcs path order s order' (follow deeper node s arc) ∧
        Handled order' (follow deeper node s arc) node arc) (sound : Sound arcs path order s) :
    ∃ order', Advances arcs path order s order' (list.foldl (follow deeper node) s) ∧
      ∀ arc ∈ list, Handled order' (list.foldl (follow deeper node) s) node arc := by
  induction list generalizing order s with
  | nil => exact ⟨order,.refl sound,fun _ none => nomatch none⟩
  | cons arc rest ih =>
    obtain ⟨order₁,first,handled⟩ := step arc mem_cons_self sound
    obtain ⟨order₂,others,all⟩ := ih (fun other member => step other (.tail _ member)) first.sound
    refine ⟨order₂,first.trans others,fun other member => ?_⟩
    rcases mem_cons.mp member with rfl | member
    · exact handled.advance others
    · exact all other member

theorem leave_advances (sound : Sound arcs path order s) (unseen : s.visit node = .unseen)
    (follows : ∃ order', Advances arcs (node :: path) order (s.mark node .onPath) order'
        ((arcs.getD node []).foldl (follow deeper node) (s.mark node .onPath)) ∧
      ∀ arc ∈ arcs.getD node [], Handled order'
        ((arcs.getD node []).foldl (follow deeper node) (s.mark node .onPath)) node arc) :
    ∃ order', Advances arcs path order s order'
        (((arcs.getD node []).foldl (follow deeper node) (s.mark node .onPath)).mark node .finished) ∧
      node ∈ order' := by
  obtain ⟨order',advances,handled⟩ := follows
  have apart := sound.apart unseen
  exact ⟨order' ++ [node],⟨advances.sound.leave apart handled,advances.later.trans (prefix_append _ _),
      advances.closing⟩,
    mem_append_right _ mem_cons_self⟩

/-- A path of distinct nodes that is as long as the graph is large leaves no node unseen. -/
theorem Sound.full (sound : Sound arcs path order s) (simple : path.Nodup)
    (long : arcs.size ≤ path.length) (inside : target < arcs.size) : s.visit target ≠ .unseen := by
  intro unseen
  have apart := sound.apart unseen
  have within : target :: path ⊆ List.range arcs.size := by
    intro n member
    rw [mem_range,← sound.size]
    rcases mem_cons.mp member with rfl | standing
    · exact sound.size ▸ inside
    · exact inside_of_visit (by rw [(sound.standing n).mpr standing]; decide)
  have short := (subperm_of_subset (nodup_cons.mpr ⟨apart,simple⟩) within).length_le
  rw [length_cons,length_range] at short
  omega

theorem explore_advances (inside : ∀ u name v, Leads arcs u name v → v < arcs.size) {room : Nat}
    (walk : Walk (Leads arcs) root trail node) (length : trail.length + room + 1 = pathLimit)
    (simple : (nodes trail).Nodup)
    (sound : Sound arcs (nodes trail) order s) (unseen : s.visit node = .unseen) :
    ∃ order', Advances arcs (nodes trail) order s order' (explore arcs room node s) ∧ node ∈ order' := by
  have apart := sound.apart unseen
  have distinct : (node :: nodes trail).Nodup := nodup_cons.mpr ⟨apart,simple⟩
  have entered := sound.enter unseen
  induction room generalizing trail node order s with
  | zero =>
    rw [explore]
    refine leave_advances sound unseen (follows_advance (fun arc listed sound =>
      follow_advances inside walk distinct ?_ sound listed) entered)
    -- The path is full: another node can be unseen only if the graph has more than it holds.
    intro order s name target sound leads unseen
    refine ⟨order,sound.close fun small => ?_,fun _ _ => .inl (by simp [close])⟩
    refine absurd unseen (sound.full distinct ?_ (inside _ _ _ leads))
    rw [length_cons,nodes,length_reverse,length_map]
    omega
  | succ room ih =>
    rw [explore]
    refine leave_advances sound unseen (follows_advance (fun arc listed sound =>
      follow_advances inside walk distinct ?_ sound listed) entered)
    intro order s name target sound leads unseen
    rw [← nodes_snoc trail node name] at sound distinct ⊢
    have free : target ∉ nodes (trail ++ [(node,name)]) := sound.apart unseen
    obtain ⟨order',advances,done⟩ := ih (walk.snoc leads) (by simp; omega) distinct sound unseen
      free (nodup_cons.mpr ⟨free,distinct⟩) (sound.enter unseen)
    refine ⟨order',advances,fun v same => .inr ?_⟩
    cases same
    exact done

end Path

theorem starts_advance (inside : ∀ u name v, Leads arcs u name v → v < arcs.size)
    (starts : List Nat) (sound : Sound arcs [] order s) :
    ∃ order', Advances arcs [] order s order' (starts.foldl (fun s node =>
        if s.visit node = .unseen then s.explore arcs (pathLimit - 1) node else s) s) ∧
      ∀ node ∈ starts, node < arcs.size → node ∈ order' := by
  induction starts generalizing order s with
  | nil => exact ⟨order,.refl sound,fun _ none => nomatch none⟩
  | cons node rest ih =>
    rw [foldl_cons]
    have first : ∃ order', Advances arcs [] order s order'
        (if s.visit node = .unseen then s.explore arcs (pathLimit - 1) node else s) ∧
        (node < arcs.size → node ∈ order') := by
      cases visit : s.visit node with
      | unseen =>
        have length : ([] : List (Nat × String)).length + (pathLimit - 1) + 1 = pathLimit := rfl
        obtain ⟨order',advances,done⟩ := explore_advances inside (.here node) length nodup_nil sound visit
        exact ⟨order',advances,fun _ => done⟩
      | onPath => cases (sound.standing node).mp visit
      | finished => exact ⟨order,.refl sound,fun bound => (sound.finished node).mpr ⟨bound,visit⟩⟩
    obtain ⟨order₁,advances,done⟩ := first
    obtain ⟨order₂,others,all⟩ := ih advances.sound
    refine ⟨order₂,advances.trans others,fun other member bound => ?_⟩
    rcases mem_cons.mp member with rfl | member
    · exact others.later.subset (done bound)
    · exact all other member bound

theorem sound_start (arcs : Array (List Arc)) : Sound arcs [] [] ⟨.replicate arcs.size .unseen,[]⟩ where
  size := Array.size_replicate
  standing n := by
    by_cases inside : n < arcs.size <;> simp [visit,Array.getD_eq_getD_getElem?,inside]
  finished n := by
    by_cases inside : n < arcs.size <;> simp [visit,Array.getD_eq_getD_getElem?,inside]
  settled u none := nomatch none
  closes _ step none := nomatch none

end Search

variable {field : String} {records : List Record} {u v : Nat}

/-- A walk without reported fields goes from node to node finished earlier. -/
theorem Walk.descends {arcs : Array (List Arc)} {closing steps : List (Nat × String)} {order : List Nat}
    (settled : ∀ u ∈ order, ∀ field v, Leads arcs u field v →
      (u,field) ∈ closing ∨ v ∈ order ∧ order.idxOf v < order.idxOf u)
    (walk : Walk (Leads arcs) u steps v) (known : u ∈ order)
    (unreported : ∀ step ∈ steps, step ∉ closing) :
    v ∈ order ∧ order.idxOf v + steps.length ≤ order.idxOf u := by
  induction walk with
  | here u => exact ⟨known,Nat.le_refl _⟩
  | step first _ ih =>
    rcases settled _ known _ _ first with closes | ⟨seen,earlier⟩
    · exact absurd closes (unreported _ mem_cons_self)
    · obtain ⟨last,bound⟩ := ih seen fun step member => unreported step (.tail _ member)
      refine ⟨last,?_⟩
      rw [length_cons]
      omega

theorem size_arcs (records : List Record) : (arcs records).size = records.length := by
  simp [arcs]

theorem leads_iff : Leads (arcs records) u field v ↔ ∃ r f, records[u]? = some r ∧ f ∈ r.fields ∧
      f.declared.isTraced ∧ f.name = field ∧
      records.findIdx? (·.name == f.typeName) = some v := by
  have row : (arcs records).getD u [] = ((records[u]?).map fun r =>
      (r.declared.fields.filter Field.isTraced).map fun f =>
        (f.name,records.findIdx? (·.name == f.typeName))).getD [] := by
    simp [arcs,Array.getD_eq_getD_getElem?]
  unfold Leads
  rw [row]
  cases records[u]? with
  | none => simp
  | some r =>
    simp only [Option.map_some,Option.getD_some,mem_map,mem_filter,Record.declared,Prod.mk.injEq]
    constructor
    · rintro ⟨_,⟨⟨f,listed,rfl⟩,traced⟩,named,target⟩
      exact ⟨r,f,rfl,listed,traced,named,target⟩
    · rintro ⟨_,f,same,listed,traced,named,target⟩
      cases same
      exact ⟨f.declared,⟨⟨f,listed,rfl⟩,traced⟩,named,target⟩

theorem leads_inside (leads : Leads (arcs records) u field v) : u < records.length ∧ v < records.length := by
  obtain ⟨r,f,found,_,_,_,target⟩ := leads_iff.mp leads
  exact ⟨(List.getElem?_eq_some_iff.mp found).1,(findIdx?_eq_some_iff_getElem.mp target).1⟩

/-- Every cycle holds a reported field and, within the limit, every reported field lies on a
cycle. -/
theorem closing_spec (records : List Record) :
    (∀ steps, IsCycle (Leads (arcs records)) steps → ∃ step ∈ steps, step ∈ closing records) ∧
      (records.length ≤ pathLimit → ∀ step ∈ closing records, OnCycle (Leads (arcs records)) step) := by
  have inside (u : Nat) (name : String) (v : Nat) (leads : Leads (arcs records) u name v) :
      v < (arcs records).size := size_arcs records ▸ (leads_inside leads).2
  obtain ⟨order,advances,all⟩ := Search.starts_advance inside (List.range records.length)
    (Search.sound_start (arcs records))
  rw [size_arcs] at advances all
  refine ⟨?_,fun small => advances.sound.closes (size_arcs records ▸ small)⟩
  rintro steps ⟨nonempty,u,walk⟩
  by_contra none
  push Not at none
  have known : u ∈ order := by
    cases walk with
    | here => exact absurd rfl nonempty
    | step first _ =>
      have bound := (leads_inside first).1
      exact all u (mem_range.mpr bound) bound
  have descent := (walk.descends advances.sound.settled known none).2
  have long := length_pos_of_ne_nil nonempty
  omega

end StagedLisp.OwnershipGraph
