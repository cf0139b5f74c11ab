import StagedLisp.Proofs.Heap.Search

/-! The component search is correct. Looking at the children of a cell keeps the invariant of the
search, and a cell that leads to nothing earlier on the stack closes a component: all that was entered
since is reached from it and leads back to it. -/
namespace StagedLisp.Heap

open List

namespace ComponentSearch

section Visit

variable {h : Heap} {root id : Nat} {path : List Nat} {s s' : ComponentSearch}

/-- What the visit of a cell comes to: `low` is the time of the earliest cell on the stack that is
reached, unless everything entered has got a component. -/
structure Visited (h : Heap) (root : Nat) (path : List Nat) (id : Nat) (s : ComponentSearch)
    (low : Nat) (s' : ComponentSearch) : Prop where
  sound : Sound h root path s'
  later : Extends s s'
  entered : s'.Entered id
  attained : low = s.clock ∧ s'.stack = s.stack ∨ Attains h s id low
  least : ∀ x ∈ s'.stack, x ∉ s.stack → ∀ y ∈ s.stack, h.Points x y → low ≤ s.time y

structure Looked (h : Heap) (root : Nat) (path : List Nat) (id : Nat) (s : ComponentSearch)
    (children : List Nat) (low : Nat) (s' : ComponentSearch) : Prop where
  sound : Sound h root (id :: path) s'
  later : Extends (s.enter id) s'
  attained : low = s.clock ∨ Attains h s id low
  least : ∀ x ∈ s'.stack, x ∉ s.stack → x ≠ id → ∀ y ∈ s.stack, h.Points x y → low ≤ s.time y
  children : ∀ y ∈ children, h.isLive y = true → s'.Entered y ∧ (y ∈ s.stack → low ≤ s.time y)

theorem looked_none (entering : Sound h root (id :: path) (s.enter id)) :
    Looked h root path id s [] s.clock (s.enter id) := by
  refine ⟨entering,.refl _,.inl rfl,?_,by simp⟩
  intro x member off other
  rcases mem_cons.mp member with rfl | member
  · exact absurd rfl other
  · exact absurd member off

theorem Looked.snoc {children : List Nat} {child low low' : Nat} {s'' : ComponentSearch}
    (looked : Looked h root path id s children low s') (sound : Sound h root (id :: path) s'')
    (later : Extends s' s'') (lower : low' ≤ low)
    (attained : low' = s.clock ∨ Attains h s id low')
    (least : ∀ x ∈ s''.stack, x ∉ s'.stack → ∀ y ∈ s.stack, h.Points x y → low' ≤ s.time y)
    (entered : h.isLive child = true → s''.Entered child ∧ (child ∈ s.stack → low' ≤ s.time child)) :
    Looked h root path id s (children ++ [child]) low' s'' := by
  refine ⟨sound,looked.later.trans later,attained,?_,?_⟩
  · intro x member off other y below edge
    by_cases before : x ∈ s'.stack
    · exact lower.trans (looked.least x before off other y below edge)
    · exact least x member before y below edge
  · intro y member live
    rcases mem_append.mp member with member | member
    · obtain ⟨there,bound⟩ := looked.children y member live
      exact ⟨later.entered there,fun below => lower.trans (bound below)⟩
    · rw [mem_singleton.mp member] at live ⊢
      exact entered live

section Look

variable {visit : Nat → ComponentSearch → Nat × ComponentSearch} {children : List Nat} {child low : Nat}

theorem look_dead (dead : h.isLive child = false) : look visit h (low,s') child = (low,s') := by
  simp [look,dead]

theorem look_entered (live : h.isLive child = true) (entered : s'.Entered child) : look visit h (low,s') child =
      (if child ∈ s'.stack then min low (s'.time child) else low,s') := by
  simp [look,live,entered.at]

theorem look_new (live : h.isLive child = true) (new : ¬ s'.Entered child) :
    look visit h (low,s') child = (min low (visit child s').1,(visit child s').2) := by
  simp [look,live,not_entered_iff.mp new]

theorem Looked.look (looked : Looked h root path id s children low s')
    (start : Sound h root path s) (entering : Extends s (s.enter id))
    (led : ∀ x ∈ path, h.Reaches x id) (held : child ∈ h.children id)
    (visits : h.isLive child = true → ¬ s'.Entered child → h.Reaches root child →
      (∀ x ∈ id :: path, h.Reaches x child) →
      Visited h root (id :: path) child s' (visit child s').1 (visit child s').2) :
    Looked h root path id s (children ++ [child]) (look visit h (low,s') child).1
      (look visit h (low,s') child).2 := by
  have later := entering.trans looked.later
  -- A cell on the stack that `id` leads to was there before `id`, or is no earlier than `id`.
  have candidate {y : Nat} (member : y ∈ s'.stack) (reaches : h.Reaches id y) :
      s.clock ≤ s'.time y ∨ Attains h s id (s'.time y) := by
    rcases later.stacked start looked.sound member with ⟨below,same⟩ | ⟨_,beyond⟩
    · exact .inr ⟨y,below,same.symm,reaches⟩
    · exact .inl beyond
  cases live : h.isLive child with
  | false =>
    rw [look_dead live]
    refine looked.snoc looked.sound (.refl _) le_rfl looked.attained ?_ (by simp [live])
    exact fun x member off => absurd member off
  | true =>
    have edge : h.Points id child := ⟨held,live⟩
    by_cases entered : s'.Entered child
    · rw [look_entered live entered]
      by_cases onStack : child ∈ s'.stack
      · rw [if_pos onStack]
        refine looked.snoc looked.sound (.refl _) (Nat.min_le_left _ _)
          (start.attained_min looked.attained (candidate onStack (.single edge)))
          (fun x member off => absurd member off) fun _ => ⟨entered,fun below => ?_⟩
        rw [later.time (start.stacked below)]
        exact Nat.min_le_right _ _
      · rw [if_neg onStack]
        refine looked.snoc looked.sound (.refl _) le_rfl looked.attained
          (fun x member off => absurd member off) fun _ => ⟨entered,fun below => ?_⟩
        exact absurd (later.stack.subset below) onStack
    · have onPath : id ∈ s'.stack := looked.sound.onStack id mem_cons_self
      have reached : h.Reaches root child := (looked.sound.rooted id (looked.sound.stacked onPath)).tail edge
      have visited := visits live entered reached fun x member => by
        rcases mem_cons.mp member with rfl | above
        · exact .single edge
        · exact (led x above).tail edge
      have next : s.clock ≤ (visit child s').1 ∨ Attains h s id (visit child s').1 := by
        rcases visited.attained with ⟨none,_⟩ | ⟨y,member,time,reaches⟩
        · rw [none]
          exact .inl later.clock
        · rw [← time]
          exact candidate member (.head edge reaches)
      rw [look_new live entered]
      refine looked.snoc visited.sound visited.later (Nat.min_le_left _ _)
        (start.attained_min looked.attained next) ?_ fun _ => ⟨visited.entered,fun below => ?_⟩
      · intro x member off y below edge
        have bound := visited.least x member off y (later.stack.subset below) edge
        rw [later.time (start.stacked below)] at bound
        exact (Nat.min_le_right _ _).trans bound
      · exact absurd (later.entered (start.stacked below)) entered

end Look

section Finish

variable {low : Nat}

variable {x y : Nat}

section

variable (looked : Looked h root path id s (h.children id) low s')

include looked

theorem Looked.explored (entered : s'.Entered x) (off : x ∉ path) (edge : h.Points x y) : s'.Entered y := by
  by_cases self : x = id
  · exact (looked.children y (self ▸ edge.1) edge.2).1
  · exact looked.sound.explored x entered (by simp [self,off]) y edge

theorem Looked.bounded (member : x ∈ s'.stack) (off : x ∉ s.stack) (below : y ∈ s.stack)
    (edge : h.Points x y) : low ≤ s.time y := by
  by_cases self : x = id
  · exact (looked.children y (self ▸ edge.1) edge.2).2 below
  · exact looked.least x member off self y below edge

omit looked in
theorem Looked.time_self {children : List Nat} (looked : Looked h root path id s children low s')
    (bound : id < s.entered.size) : s'.time id = s.clock := by
  rw [looked.later.time ((entered_enter bound _).mpr (.inl rfl)),time_enter bound]

/-- A cell that leads to an earlier one stays on the stack, and reaches the path through it. -/
theorem Looked.keep (start : Sound h root path s) (entering : Extends s (s.enter id))
    (bound : id < s.entered.size) (earlier : low ≠ s.clock) : Visited h root path id s low s' := by
  have later := entering.trans looked.later
  have attains := looked.attained.resolve_left earlier
  have onStack : id ∈ s'.stack := looked.sound.onStack id mem_cons_self
  refine ⟨?_,later,looked.sound.stacked onStack,.inr attains,
    fun x member off y below edge => looked.bounded member off below edge⟩
  refine { looked.sound with onStack := ?_, explored := ?_, down := ?_, up := ?_ }
  · exact fun x member => looked.sound.onStack x (.tail _ member)
  · exact fun x entered off y edge => looked.explored entered off edge
  · exact fun x member => looked.sound.down x (.tail _ member)
  · intro y member
    obtain ⟨x,onPath,less,reaches⟩ := looked.sound.up y member
    rcases mem_cons.mp onPath with rfl | above
    · obtain ⟨z,below,_,reaches'⟩ := attains
      obtain ⟨x',above,less',reaches''⟩ := start.up z below
      refine ⟨x',above,?_,(reaches.trans reaches').trans reaches''⟩
      have early := start.early z (start.stacked below)
      rw [looked.time_self bound] at less
      rw [later.time (start.stacked (start.onStack x' above))]
      omega
    · exact ⟨x,above,less,reaches⟩

end

theorem complete_eq {front rest : List Nat} (whole : s.stack = front ++ id :: rest) (outside : id ∉ front) :
    s.complete id = { s with stack := rest, components := s.components ++ [front ++ [id]] } := by
  have before : ∀ x ∈ front, (x != id) = true := by
    intro x member
    simp only [bne_iff_ne]
    rintro rfl
    exact outside member
  have taken : s.stack.takeWhile (· != id) = front := by
    rw [whole,takeWhile_append_of_pos before]
    simp
  unfold complete
  rw [taken,whole]
  simp

variable (looked : Looked h root path id s (h.children id) s.clock s') (start : Sound h root path s)

include looked start

/-- What lies above the old stack leads only to itself and to completed components. -/
theorem Looked.closed (member : x ∈ s'.stack) (off : x ∉ s.stack) (edge : h.Points x y) :
    y ∈ s'.stack ∧ y ∉ s.stack ∨ y ∈ s'.components.flatten := by
  have outside : x ∉ path := fun onPath => off (start.onStack x onPath)
  have entered := looked.explored (looked.sound.stacked member) outside edge
  rcases mem_append.mp ((looked.sound.known y).mp entered) with stacked | complete
  · refine .inl ⟨stacked,fun below => ?_⟩
    exact lt_irrefl _ ((start.early y (start.stacked below)).trans_le (looked.bounded member off below edge))
  · exact .inr complete

/-- What lies above the old stack is a component: `id` leads to all of it and back. -/
theorem Looked.linked (entering : Extends s (s.enter id)) (bound : id < s.entered.size)
    (memberX : x ∈ s'.stack) (offX : x ∉ s.stack) (memberY : y ∈ s'.stack) (offY : y ∉ s.stack) :
    h.Reaches x y := by
  have later := entering.trans looked.later
  have forth : h.Reaches id y := by
    apply looked.sound.down id mem_cons_self y memberY
    rw [looked.time_self bound]
    rcases later.stacked start looked.sound memberY with ⟨below,_⟩ | ⟨_,since⟩
    · exact absurd below offY
    · exact since
  have confined {z : Nat} (reaches : h.Reaches x z) : z ∈ s'.stack ∧ z ∉ s.stack ∨ z ∈ s'.components.flatten := by
    induction reaches with
    | refl => exact .inl ⟨memberX,offX⟩
    | tail _ edge ih =>
      rcases ih with ⟨stacked,off⟩ | complete
      · exact looked.closed start stacked off edge
      · obtain ⟨i,within⟩ := exists_within.mpr complete
        obtain ⟨j,_,within'⟩ := looked.sound.completed.sinks i _ _ within edge
        exact .inr (exists_within.mp ⟨j,within'⟩)
  obtain ⟨z,onPath,_,back⟩ := looked.sound.up x memberX
  rcases mem_cons.mp onPath with rfl | above
  · exact back.trans forth
  · -- The rest of the path lies below, which `x` does not lead to.
    have below := start.onStack z above
    rcases confined back with ⟨_,off⟩ | complete
    · exact absurd below off
    · exact absurd complete (disjoint_of_nodup_append looked.sound.apart (later.stack.subset below))

theorem Looked.complete (entering : Extends s (s.enter id)) (bound : id < s.entered.size) :
    Visited h root path id s s.clock (s'.complete id) := by
  have later := entering.trans looked.later
  have sound := looked.sound
  obtain ⟨front,tail⟩ := looked.later.stack
  have whole : s'.stack = (front ++ [id]) ++ s.stack := by
    rw [← tail,append_assoc]
    rfl
  have distinct : ((front ++ [id]) ++ s.stack).Nodup := whole ▸ sound.apart.of_append_left
  have off {x : Nat} (member : x ∈ front ++ [id]) : x ∈ s'.stack ∧ x ∉ s.stack :=
    ⟨whole ▸ mem_append_left _ member,disjoint_of_nodup_append distinct member⟩
  have outside : id ∉ front := fun member =>
    disjoint_of_nodup_append distinct.of_append_left member (mem_singleton_self id)
  have regrouped : (s.stack ++ (s'.components ++ [front ++ [id]]).flatten).Perm
      (s'.stack ++ s'.components.flatten) := by
    rw [whole,flatten_append,flatten_singleton,append_assoc,← append_assoc s.stack]
    exact perm_append_comm
  rw [complete_eq tail.symm outside]
  refine ⟨?_,?_,sound.stacked (off (by simp)).1,.inl ⟨rfl,rfl⟩,fun x member off => absurd member off⟩
  · constructor
    · exact sound.size
    · intro x
      rw [regrouped.mem_iff]
      exact sound.known x
    · exact regrouped.nodup_iff.mpr sound.apart
    · exact sound.early
    · exact sound.ordered.sublist later.stack.sublist
    · exact start.onStack
    · exact fun x entered off y edge => looked.explored entered off edge
    · exact sound.rooted
    · exact fun x onPath y below =>
        sound.down x (.tail _ onPath) y (later.stack.subset below)
    · intro y below
      obtain ⟨x,onPath,less,reaches⟩ := start.up y below
      refine ⟨x,onPath,?_,reaches⟩
      have timeX := later.time (start.stacked (start.onStack x onPath))
      have timeY := later.time (start.stacked below)
      exact timeX.symm ▸ timeY.symm ▸ less
    · refine sound.completed.snoc ?_ ?_ (by simp)
      · intro x member y edge
        rcases looked.closed start (off member).1 (off member).2 edge with ⟨stacked,above⟩ | complete
        · rw [whole] at stacked
          exact .inl ((mem_append.mp stacked).resolve_right above)
        · exact .inr complete
      · exact fun x memberX y memberY => looked.linked start entering bound (off memberX).1
          (off memberX).2 (off memberY).1 (off memberY).2
  · exact ⟨suffix_refl _,later.components.trans (prefix_append _ _),later.clock,later.same,later.fresh⟩

end Finish

/-- Visiting a cell does what it should, if the depth allows for the cells not yet entered. -/
theorem visit_visited (depth : Nat) (sound : Sound h root path s) (live : h.isLive id = true)
    (new : ¬ s.Entered id) (reached : h.Reaches root id) (led : ∀ x ∈ path, h.Reaches x id)
    (enough : remaining h s ≤ depth) :
    Visited h root path id s (visit h depth id s).1 (visit h depth id s).2 := by
  have bound := sound.bound live
  have fewer := remaining_enter bound live new
  induction depth generalizing id path s with
  | zero => omega
  | succ depth ih =>
    have entering := extends_enter bound new
    have looked (todo done : List Nat) (state : Nat × ComponentSearch)
        (held : ∀ child ∈ todo, child ∈ h.children id)
        (looked : Looked h root path id s done state.1 state.2) :
        Looked h root path id s (done ++ todo) (todo.foldl (look (visit h depth) h) state).1
          (todo.foldl (look (visit h depth) h) state).2 := by
      induction todo generalizing done state with
      | nil => rwa [append_nil]
      | cons child todo ihTodo =>
        have next := looked.look sound entering led (held child mem_cons_self) fun live new reached led =>
            have bound := looked.sound.bound live
            ih looked.sound live new reached led (looked.later.remaining_le.trans (by omega)) bound
              (remaining_enter bound live new)
        rw [append_cons]
        exact ihTodo _ _ (fun other member => held other (.tail _ member)) next
    have all := looked (h.children id) [] (s.clock,s.enter id) (fun _ member => member)
      (looked_none (sound.enter live new reached led))
    rw [nil_append] at all
    rw [visit]
    dsimp only
    split
    · next closes =>
      rw [closes] at all ⊢
      exact all.complete sound entering bound
    · next open' => exact all.keep sound entering bound open'

end Visit

theorem sound_start (h : Heap) (root : Nat) : Sound h root [] { entered := .replicate h.cells.size none } := by
  have none (id : Nat) : ({ entered := .replicate h.cells.size none } : ComponentSearch).enteredAt? id = none := by
    rw [enteredAt?,Array.getD_eq_getD_getElem?,Array.getElem?_replicate]
    split <;> rfl
  constructor <;> simp [Entered,none,completed_nil]

variable {components : List (List Nat)}

theorem Completed.reaches {h : Heap} (completed : Completed h components) {i x y : Nat}
    (within : Within components i x) (reaches : h.Reaches x y) :
    ∃ j ≤ i, Within components j y := by
  induction reaches with
  | refl => exact ⟨i,le_rfl,within⟩
  | tail _ edge ih =>
    obtain ⟨j,less,within⟩ := ih
    obtain ⟨k,less',within⟩ := completed.sinks j _ _ within edge
    exact ⟨k,less'.trans less,within⟩

theorem within_unique (distinct : components.flatten.Nodup) {i j id : Nat}
    (first : Within components i id) (second : Within components j id) : i = j := by
  obtain ⟨a,foundA,memberA⟩ := first
  obtain ⟨b,foundB,memberB⟩ := second
  obtain ⟨boundA,rfl⟩ := List.getElem?_eq_some_iff.mp foundA
  obtain ⟨boundB,rfl⟩ := List.getElem?_eq_some_iff.mp foundB
  have disjoint := pairwise_iff_getElem.mp (nodup_flatten.mp distinct).2
  rcases Nat.lt_trichotomy i j with less | same | more
  · exact absurd memberB (disjoint i j boundA boundB less memberA)
  · exact same
  · exact absurd memberA (disjoint j i boundB boundA more memberB)

end ComponentSearch

open ComponentSearch

theorem components_completed {h : Heap} {root : Nat} (live : h.isLive root = true) :
    Completed h (h.components root) ∧ (h.components root).flatten.Nodup ∧
      ∀ id, id ∈ (h.components root).flatten ↔ h.Reaches root id := by
  have start := sound_start h root
  have enough : remaining h { entered := .replicate h.cells.size none } ≤ h.cells.size :=
    (Finset.card_filter_le _ _).trans (Finset.card_range _).le
  have new : ¬ Entered { entered := .replicate h.cells.size none } root := by
    rw [start.known root]
    simp
  have visited := visit_visited h.cells.size start live new .refl (by simp) enough
  rw [components,if_pos live]
  generalize (visit h h.cells.size root { entered := .replicate h.cells.size none }).2 = s at visited ⊢
  have sound := visited.sound
  have empty : s.stack = [] := by
    apply eq_nil_iff_forall_not_mem.mpr
    intro y member
    obtain ⟨x,onPath,_⟩ := sound.up y member
    cases onPath
  have known (id : Nat) : s.Entered id ↔ id ∈ s.components.flatten := by
    rw [sound.known id,empty,nil_append]
  refine ⟨sound.completed,by simpa [empty] using sound.apart,?_⟩
  intro id
  rw [← known id]
  constructor
  · exact sound.rooted id
  · intro reaches
    induction reaches with
    | refl => exact visited.entered
    | tail _ edge ih => exact sound.explored _ ih (by simp) _ edge

/-- The components are the classes of mutual reachability among the live cells that a live root
reaches, each cell in one of them and once, and what a component points to comes before it. A dead
root has none. -/
theorem components_correct (h : Heap) (root : Nat) :
    (h.isLive root = true →
      (∀ id, (h.components root).flatten.count id = 1 ↔ h.Reaches root id) ∧
      (∀ id, (h.components root).flatten.count id ≤ 1) ∧ [] ∉ h.components root ∧
      ∀ (i j : Nat) (a b : List Nat), (h.components root)[i]? = some a →
        (h.components root)[j]? = some b → ∀ x ∈ a, ∀ y ∈ b,
          (i = j ↔ h.Reaches x y ∧ h.Reaches y x) ∧ (y ∈ h.children x → i ≠ j → j < i)) ∧
    (h.isLive root = false → h.components root = []) := by
  constructor
  · intro live
    obtain ⟨completed,distinct,reached⟩ := components_completed live
    refine ⟨?_,nodup_iff_count_le_one.mp distinct,completed.inhabited,?_⟩
    · intro id
      rw [← reached id]
      constructor
      · intro once
        exact count_pos_iff.mp (once ▸ Nat.one_pos)
      · exact count_eq_one_of_mem distinct
    · intro i j a b foundA foundB x memberA y memberB
      have withinX : Within (h.components root) i x := ⟨a,foundA,memberA⟩
      have withinY : Within (h.components root) j y := ⟨b,foundB,memberB⟩
      refine ⟨⟨?_,?_⟩,?_⟩
      · rintro rfl
        obtain rfl : a = b := Option.some.inj (foundA.symm.trans foundB)
        have linked := completed.linked a (mem_of_getElem? foundA)
        exact ⟨linked x memberA y memberB,linked y memberB x memberA⟩
      · rintro ⟨forth,back⟩
        obtain ⟨k,less,within⟩ := completed.reaches withinX forth
        obtain ⟨l,less',within'⟩ := completed.reaches withinY back
        obtain rfl := within_unique distinct withinY within
        obtain rfl := within_unique distinct withinX within'
        exact less'.antisymm less
      · intro child differ
        have live : h.isLive y = true := by
          apply Reaches.live ((reached y).mp _) live
          exact exists_within.mp ⟨j,withinY⟩
        obtain ⟨k,less,within⟩ := completed.sinks i x y withinX ⟨child,live⟩
        obtain rfl := within_unique distinct withinY within
        exact Nat.lt_of_le_of_ne less (Ne.symm differ)
  · intro dead
    rw [components,dead]
    rfl

/-- Two cells in a circle, one of which points to a cell that holds itself and the other to a dead
cell. -/
def twoCircles : Heap where
  cells := #[some { content := .pair (some 1) (some 2) },some { content := .pair (some 0) (some 3) },
    some { content := .pair none (some 2) },none]

theorem twoCircles_components :
    (twoCircles.isLive 0 = true ∧ twoCircles.components 0 = [[2],[1,0]]) ∧
    (twoCircles.isLive 3 = false ∧ twoCircles.components 3 = []) ∧
    (∀ id, [2,1,0].count id = 1 ↔ twoCircles.Reaches 0 id) ∧
    (twoCircles.Reaches 0 1 ∧ twoCircles.Reaches 1 0) ∧
    ¬ (twoCircles.Reaches 0 2 ∧ twoCircles.Reaches 2 0) := by
  have live : twoCircles.isLive 0 = true := by decide
  have dead : twoCircles.isLive 3 = false := by decide
  have found : twoCircles.components 0 = [[2],[1,0]] := by decide +kernel
  obtain ⟨ofLive,ofDead⟩ := components_correct twoCircles 0
  obtain ⟨reached,_,_,classes⟩ := ofLive live
  rw [found] at reached classes
  refine ⟨⟨live,found⟩,⟨dead,(components_correct twoCircles 3).2 dead⟩,reached,?_,?_⟩
  · exact (classes 1 1 _ _ rfl rfl 0 (by decide) 1 (by decide)).1.mp rfl
  · intro both
    have same := (classes 1 0 _ _ rfl rfl 0 (by decide) 2 (by decide)).1.mpr both
    cases same

end StagedLisp.Heap
