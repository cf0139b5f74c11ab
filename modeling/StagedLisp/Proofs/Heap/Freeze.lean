import StagedLisp.Proofs.Heap.Collapse

/-! What a freeze makes. Each cell is tagged with the position of its component, so that the references
out of a group are those that the freeze has counted. With the reference to the root's group all groups
are freed. -/
namespace StagedLisp

open List Cascade Heap ComponentSearch Function

namespace Heap

theorem object?_setComponent (h : Heap) (id : Nat) (component : Int) (x : Nat) :
    (h.setComponent id component).object? x = (h.object? x).map fun object =>
      if x = id then { object with component } else object := by
  unfold setComponent update
  split
  · next object found =>
    rw [object?_put (object_bound found)]
    by_cases same : x = id
    · subst same
      simp [found]
    · simp [same]
  · next absent =>
    by_cases same : x = id
    · simp [same,absent]
    · simp [same]

def tagMembers (h : Heap) (component : Int) (members : List Nat) : Heap :=
  members.foldl (fun h member => h.setComponent member component) h

theorem object?_tagMembers (h : Heap) (component : Int) (members : List Nat) (x : Nat) :
    (h.tagMembers component members).object? x = (h.object? x).map fun object =>
      if x ∈ members then { object with component } else object := by
  induction members generalizing h with
  | nil => simp [tagMembers]
  | cons member members ih =>
    have rest := ih (h.setComponent member component)
    rw [object?_setComponent,Option.map_map] at rest
    refine rest.trans (Option.map_congr fun object _ => ?_)
    by_cases same : x = member <;> by_cases later : x ∈ members <;> simp [same,later]

/-- The cells of each part are tagged with its position, counted from `base`. -/
def tagParts (h : Heap) (base : Nat) (parts : List (List Nat × Nat)) : Heap :=
  parts.foldl (fun h part => h.tagMembers (base + part.2 : Nat) part.1) h

theorem poolSize_tagParts (h : Heap) (base : Nat) (parts : List (List Nat × Nat)) :
    (h.tagParts base parts).poolSize = h.poolSize := by
  have one (h : Heap) (id : Nat) (component : Int) : (h.setComponent id component).poolSize = h.poolSize := by
    unfold setComponent update
    split <;> rfl
  have some (h : Heap) (component : Int) (members : List Nat) :
      (h.tagMembers component members).poolSize = h.poolSize := by
    induction members generalizing h with
    | nil => rfl
    | cons member members ih => exact (ih _).trans (one h member component)
  induction parts generalizing h with
  | nil => rfl
  | cons part parts ih => exact (ih _).trans (some h _ part.1)

section Tags

variable {parts : List (List Nat)} {n i x : Nat}

theorem object?_tagParts_other (h : Heap) (base : Nat) (other : x ∉ parts.flatten) :
    (h.tagParts base (parts.zipIdx n)).object? x = h.object? x := by
  induction parts generalizing h n with
  | nil => rfl
  | cons members parts ih =>
    rw [flatten_cons,mem_append,not_or] at other
    refine (ih _ other.2).trans ?_
    simp [object?_tagMembers,other.1]

theorem object?_tagParts (h : Heap) (base : Nat) (distinct : parts.flatten.Nodup)
    (within : Within parts i x) : (h.tagParts base (parts.zipIdx n)).object? x =
      (h.object? x).map fun object => { object with component := (base + (n + i) : Nat) } := by
  induction parts generalizing h n i with
  | nil =>
    obtain ⟨_,found,_⟩ := within
    cases found
  | cons members parts ih =>
    rw [flatten_cons] at distinct
    obtain ⟨part,found,member⟩ := within
    cases i with
    | zero =>
      obtain rfl : members = part := by simpa using found
      have other := disjoint_of_nodup_append distinct member
      refine (object?_tagParts_other _ base other).trans ?_
      simp [object?_tagMembers,member]
    | succ i =>
      have within : Within parts i x := ⟨part,by simpa using found,member⟩
      have other : x ∉ members := fun before =>
        disjoint_of_nodup_append distinct before (exists_within.mp ⟨i,within⟩)
      refine (ih (h.tagMembers _ members) distinct.of_append_right within).trans ?_
      simp only [object?_tagMembers,other,if_false,Option.map_map]
      refine Option.map_congr fun object _ => ?_
      simp only [comp_apply,Nat.add_right_comm n 1 i,Nat.add_assoc]

end Tags

end Heap

namespace FrozenGroups

/-- The parts are the components of what a live root reaches. -/
structure Partition (h : Heap) (root : Nat) (parts : List (List Nat)) : Prop where
  live : h.isLive root = true
  completed : Completed h parts
  distinct : parts.flatten.Nodup
  reached : ∀ x, x ∈ parts.flatten ↔ h.Reaches root x

theorem partition_components {h : Heap} {root : Nat} (live : h.isLive root = true) :
    Partition h root (h.components root) := by
  obtain ⟨completed,distinct,reached⟩ := components_completed live
  exact ⟨live,completed,distinct,reached⟩

/-- The references out of one part, once for each. -/
def crossingsFrom (h : Heap) (parts : List (List Nat)) (part : List Nat × Nat) : List Nat :=
  ((part.1.flatMap h.children).filterMap (memberOf? parts)).filter (· != part.2)

section Partition

variable {h : Heap} {root i j x : Nat} {parts : List (List Nat)} {members : List Nat}

theorem memberOf?_eq_some (distinct : parts.flatten.Nodup) : memberOf? parts x = some i ↔ Within parts i x := by
  rw [memberOf?,findIdx?_eq_some_iff_getElem]
  constructor
  · rintro ⟨bound,there,_⟩
    exact ⟨parts[i],getElem?_eq_getElem bound,by simpa using there⟩
  · intro within
    obtain ⟨part,found,member⟩ := within
    obtain ⟨bound,rfl⟩ := List.getElem?_eq_some_iff.mp found
    refine ⟨bound,by simpa using member,?_⟩
    intro j before there
    have earlier : Within parts j x := ⟨parts[j],getElem?_eq_getElem (before.trans bound),by simpa using there⟩
    exact absurd (within_unique distinct earlier ⟨_,found,member⟩) before.ne

theorem mem_crossingsFrom (distinct : parts.flatten.Nodup) : j ∈ crossingsFrom h parts (members,i) ↔
    j ≠ i ∧ ∃ x ∈ members, ∃ y ∈ h.children x, Within parts j y := by
  simp only [crossingsFrom,mem_filter,mem_filterMap,mem_flatMap,memberOf?_eq_some distinct,bne_iff_ne]
  constructor
  · rintro ⟨⟨y,⟨x,member,child⟩,within⟩,other⟩
    exact ⟨other,x,member,y,child,within⟩
  · rintro ⟨other,x,member,y,child,within⟩
    exact ⟨⟨y,⟨x,member,child⟩,within⟩,other⟩

theorem crossings_eq (h : Heap) (parts : List (List Nat)) :
    crossings h parts = parts.zipIdx.flatMap (crossingsFrom h parts) := rfl

namespace Partition

variable (partition : Partition h root parts)

include partition

theorem within_live (within : Within parts i x) : h.isLive x = true :=
  Reaches.live ((partition.reached x).mp (exists_within.mp ⟨i,within⟩)) partition.live

theorem earlier (found : parts[i]? = some members) (crosses : j ∈ crossingsFrom h parts (members,i)) : j < i := by
  obtain ⟨other,x,member,y,child,within⟩ := (mem_crossingsFrom partition.distinct).mp crosses
  obtain ⟨k,less,within'⟩ := partition.completed.sinks i x y ⟨members,found,member⟩
    ⟨child,partition.within_live within⟩
  obtain rfl := within_unique partition.distinct within within'
  omega

theorem crossed (found : parts[i]? = some members) (other : ¬ Within parts i root) : i ∈ crossings h parts := by
  have into {x : Nat} (reaches : h.Reaches root x) (within : Within parts i x) :
      ∃ k y z, k ≠ i ∧ Within parts k y ∧ h.Points y z ∧ Within parts i z := by
    induction reaches with
    | refl => exact absurd within other
    | @tail y z reaches edge ih =>
      obtain ⟨k,before⟩ := exists_within.mpr ((partition.reached y).mpr reaches)
      by_cases same : k = i
      · exact ih (same ▸ before)
      · exact ⟨k,y,z,same,before,edge,within⟩
  obtain ⟨x,member⟩ : ∃ x, x ∈ members := by
    apply exists_mem_of_ne_nil
    rintro rfl
    exact partition.completed.inhabited (mem_of_getElem? found)
  have within : Within parts i x := ⟨members,found,member⟩
  obtain ⟨k,y,z,differ,⟨source,listed,holder⟩,edge,target⟩ :=
    into ((partition.reached x).mp (exists_within.mp ⟨i,within⟩)) within
  rw [crossings_eq,mem_flatMap]
  refine ⟨(source,k),mem_zipIdx_iff_getElem?.mpr (by simpa using listed),?_⟩
  exact (mem_crossingsFrom partition.distinct).mpr ⟨Ne.symm differ,y,holder,z,edge.1,target⟩

theorem children_tagged (base : Nat) : (h.tagParts base parts.zipIdx).children = h.children := by
  funext x
  rw [Heap.children,Heap.children]
  by_cases inside : x ∈ parts.flatten
  · obtain ⟨i,within⟩ := exists_within.mpr inside
    rw [object?_tagParts h base partition.distinct within,Option.map_map]
    rfl
  · rw [object?_tagParts_other h base inside]

theorem isLive_tagged (base x : Nat) : (h.tagParts base parts.zipIdx).isLive x = h.isLive x := by
  rw [isLive,isLive]
  by_cases inside : x ∈ parts.flatten
  · obtain ⟨i,within⟩ := exists_within.mpr inside
    rw [object?_tagParts h base partition.distinct within,Option.isSome_map]
  · rw [object?_tagParts_other h base inside]

theorem crossings_tagged (base : Nat) : crossings (h.tagParts base parts.zipIdx) parts = crossings h parts := by
  simp only [crossings,partition.children_tagged base]

theorem outgoing_tagged (base : Nat) (found : parts[i]? = some members) :
    outgoing (h.tagParts base parts.zipIdx) (base + i) members =
      (crossingsFrom h parts (members,i)).map fun j => .group (base + j) := by
  rw [outgoing,partition.children_tagged base,crossingsFrom,filter_filterMap,map_filterMap]
  refine filterMap_congr fun child pointed => ?_
  obtain ⟨x,member,held⟩ := mem_flatMap.mp pointed
  by_cases inside : child ∈ parts.flatten
  · obtain ⟨j,within⟩ := exists_within.mpr inside
    obtain ⟨object,there⟩ := isLive_iff.mp (partition.within_live within)
    rw [object?_tagParts h base partition.distinct within,there,(memberOf?_eq_some partition.distinct).mpr within]
    have tagged : ¬ ((base + j : Nat) : Int) < 0 := Int.not_lt.mpr (Int.natCast_nonneg _)
    simp only [Option.map_some,Nat.zero_add,tagged,if_false,Int.toNat_natCast,Nat.add_left_cancel_iff]
    by_cases same : j = i <;> simp [same,Option.filter]
  · have outside : memberOf? parts child = none := by
      by_contra inner
      obtain ⟨j,at'⟩ := Option.ne_none_iff_exists'.mp inner
      exact inside (exists_within.mp ⟨j,(memberOf?_eq_some partition.distinct).mp at'⟩)
    have dead : h.object? child = none := by
      by_contra live
      obtain ⟨object,there⟩ := Option.ne_none_iff_exists'.mp live
      obtain ⟨j,_,within⟩ := partition.completed.sinks i x child ⟨members,found,member⟩
        ⟨held,isLive_iff.mpr ⟨object,there⟩⟩
      exact inside (exists_within.mp ⟨j,within⟩)
    rw [object?_tagParts_other h base inside,dead,outside]
    rfl

end Partition

def groupsOf (h : Heap) (root base : Nat) (parts : List (List Nat)) : List Group :=
  parts.zipIdx.map fun part =>
    { id := base + part.2
      members := part.1
      count := (crossings h parts).count part.2 + (if memberOf? parts root = some part.2 then 1 else 0) }

theorem groupsOf_at (h : Heap) (root base : Nat) (found : parts[i]? = some members) :
    (groupsOf h root base parts)[i]? = some
      { id := base + i
        members
        count := (crossings h parts).count i + (if memberOf? parts root = some i then 1 else 0) } := by
  simp [groupsOf,getElem?_map,getElem?_zipIdx,found]

theorem groupsOf_length (h : Heap) (root base : Nat) : (groupsOf h root base parts).length = parts.length := by
  simp [groupsOf]

def extend (f : FrozenGroups) (new : List Group) : FrozenGroups :=
  { f with groups := f.groups ++ (new.map some).toArray }

abbrev made (f : FrozenGroups) (h : Heap) (root : Nat) (parts : List (List Nat)) : FrozenGroups :=
  f.extend (groupsOf h root f.groups.size parts)

theorem group?_extend (f : FrozenGroups) (new : List Group) (g : Nat) : (f.extend new).group? g =
    if g < f.groups.size then f.group? g else new[g - f.groups.size]? := by
  simp only [group?,extend,Array.getD_eq_getD_getElem?]
  split
  · next before => rw [Array.getElem?_append_left before]
  · next after =>
    rw [Array.getElem?_append_right (le_of_not_gt after),getElem?_toArray,getElem?_map]
    cases new[g - f.groups.size]? <;> rfl

theorem freeze_eq (f : FrozenGroups) (live : h.isLive root = true) : f.freeze h root =
    ((memberOf? (h.components root) root).map (f.groups.size + ·),f.made h root (h.components root),
      h.tagParts f.groups.size (h.components root).zipIdx) := by
  have same := (partition_components live).crossings_tagged f.groups.size
  rw [made,groupsOf,extend,← same,map_map]
  rfl

namespace Partition

theorem group?_made (f : FrozenGroups) (found : parts[i]? = some members) :
    (f.made h root parts).group? (f.groups.size + i) = some
      { id := f.groups.size + i
        members
        count := (crossings h parts).count i + (if memberOf? parts root = some i then 1 else 0) } := by
  rw [group?_extend,if_neg (by omega),Nat.add_sub_cancel_left,groupsOf_at h root _ found]

theorem membersOf_made (f : FrozenGroups) (found : parts[i]? = some members) :
    (f.made h root parts).membersOf (f.groups.size + i) = members :=
  membersOf_eq (group?_made f found)

theorem mem_groupsFrom_made (f : FrozenGroups) {id : Nat} : id ∈ (f.made h root parts).groupsFrom f.groups.size ↔
      ∃ i, id = f.groups.size + i ∧ parts[i]? = some ((f.made h root parts).membersOf id) := by
  have count : (f.made h root parts).groups.size = f.groups.size + parts.length := by
    simp [made,extend,groupsOf_length]
  rw [mem_groupsFrom,count]
  constructor
  · rintro ⟨least,bound⟩
    obtain ⟨i,rfl⟩ := Nat.exists_eq_add_of_le least
    have found : parts[i]? = some parts[i] := getElem?_eq_getElem (by omega)
    exact ⟨i,rfl,by rw [membersOf_made f found,found]⟩
  · rintro ⟨i,rfl,found⟩
    have := (List.getElem?_eq_some_iff.mp found).1
    omega

variable (partition : Partition h root parts) (f : FrozenGroups)

include partition f

theorem targets_made (found : parts[i]? = some members) : (f.made h root parts).targets
      (h.tagParts f.groups.size parts.zipIdx) (f.groups.size + i) =
        (crossingsFrom h parts (members,i)).map (f.groups.size + ·) := by
  rw [targets,membersOf_made f found,partition.outgoing_tagged f.groups.size found,outgoingGroups,filterMap_map]
  exact congrFun filterMap_eq_map' _

theorem targets_all : ((f.made h root parts).groupsFrom f.groups.size).flatMap ((f.made h root parts).targets
        (h.tagParts f.groups.size parts.zipIdx)) =
      (crossings h parts).map (f.groups.size + ·) := by
  have positions : (f.made h root parts).groupsFrom f.groups.size =
      parts.zipIdx.map fun part => f.groups.size + part.2 := by
    have numbers : parts.zipIdx.map (fun part => f.groups.size + part.2) =
        (parts.zipIdx.map Prod.snd).map (f.groups.size + ·) := map_map.symm
    rw [numbers,zipIdx_map_snd,map_add_range',groupsFrom,made,extend]
    simp [groupsOf_length]
  rw [positions,flatMap_map,crossings_eq,map_flatMap]
  refine flatMap_congr fun part listed => ?_
  have found : parts[part.2]? = some part.1 := by
    simpa using mem_zipIdx_iff_getElem?.mp listed
  exact partition.targets_made f found

/-- The groups made by a freeze count the references among them and the one to the root's group. -/
theorem condensed {r : Nat} (within : Within parts r root) :
    Condensed f.groups.size [f.groups.size + r] (f.made h root parts) (h.tagParts f.groups.size parts.zipIdx) := by
  have rootAt := (memberOf?_eq_some partition.distinct).mpr within
  have countOf {i : Nat} {members : List Nat} (found : parts[i]? = some members) :
      (f.made h root parts).countOf f.groups.size (f.groups.size + i) =
        some ((crossings h parts).count i + if r = i then 1 else 0) := by
    rw [countOf_eq (group?_made f found) (Nat.le_add_right _ _),rootAt]
    simp
  constructor
  case counted =>
    intro id listed
    obtain ⟨i,rfl,found⟩ := (mem_groupsFrom_made f).mp listed
    refine ⟨_,countOf found,?_⟩
    by_cases same : r = i
    · simp [same]
    · have other : ¬ Within parts i root := fun here =>
        same (within_unique partition.distinct within here)
      have := count_pos_iff.mpr (partition.crossed found other)
      omega
  case exact =>
    have listed (id n : Nat) (counts : (f.made h root parts).countOf f.groups.size id = some n) :
        id ∈ (f.made h root parts).groupsFrom f.groups.size := by
      unfold FrozenGroups.countOf at counts
      split at counts
      · cases counts
      · next late =>
        obtain ⟨group,found,_⟩ := Option.map_eq_some_iff.mp counts
        exact mem_groupsFrom.mpr ⟨le_of_not_gt late,group_bound found⟩
    refine ⟨listed,?_⟩
    intro id n counts
    obtain ⟨i,rfl,found⟩ := (mem_groupsFrom_made f).mp (listed id n counts)
    rw [countOf found,Option.some.injEq] at counts
    rw [count_due,partition.targets_all f,
      count_map_of_injective _ _ fun _ _ => Nat.add_left_cancel,count_singleton,← counts]
    by_cases same : r = i
    · simp [same,Nat.add_comm]
    · simp [same]
  case referred =>
    intro id listed
    obtain ⟨part,found,_⟩ := within
    rw [mem_singleton.mp listed]
    exact (mem_groupsFrom_made f).mpr ⟨r,rfl,by rw [membersOf_made f found,found]⟩
  case earlier =>
    intro id listed target points
    obtain ⟨i,rfl,found⟩ := (mem_groupsFrom_made f).mp listed
    rw [partition.targets_made f found] at points
    obtain ⟨j,crosses,rfl⟩ := mem_map.mp points
    have := partition.earlier found crosses
    omega
  case live =>
    intro id listed x member
    obtain ⟨i,rfl,found⟩ := (mem_groupsFrom_made f).mp listed
    rw [partition.isLive_tagged]
    exact partition.within_live ⟨_,found,member⟩
  case distinct =>
    intro id listed
    obtain ⟨i,rfl,found⟩ := (mem_groupsFrom_made f).mp listed
    exact (nodup_flatten.mp partition.distinct).1 _ (mem_of_getElem? found)
  case apart =>
    intro id listed id' listed' x member member'
    obtain ⟨i,rfl,found⟩ := (mem_groupsFrom_made f).mp listed
    obtain ⟨j,rfl,found'⟩ := (mem_groupsFrom_made f).mp listed'
    rw [within_unique partition.distinct ⟨_,found,member⟩ ⟨_,found',member'⟩]
  case frozen =>
    intro id listed
    obtain ⟨i,rfl,found⟩ := (mem_groupsFrom_made f).mp listed
    rw [partition.outgoing_tagged f.groups.size found,outgoingCells,filterMap_map]
    exact filterMap_eq_nil_iff.mpr fun _ _ => rfl
  case inside =>
    intro id listed x member child held live
    obtain ⟨i,rfl,found⟩ := (mem_groupsFrom_made f).mp listed
    rw [partition.children_tagged] at held
    rw [partition.isLive_tagged] at live
    obtain ⟨j,_,target,found',there⟩ := partition.completed.sinks i x child ⟨_,found,member⟩ ⟨held,live⟩
    refine ⟨f.groups.size + j,?_,by rwa [membersOf_made f found']⟩
    by_cases same : j = i
    · exact .inl (same ▸ rfl)
    · rw [partition.targets_made f found]
      refine .inr (mem_map_of_mem ?_)
      exact (mem_crossingsFrom partition.distinct).mpr ⟨same,x,member,child,held,target,found',there⟩

end Partition

end Partition

def since (f : FrozenGroups) (first : Nat) : List Group :=
  (f.groups.toList.drop first).filterMap id

section References

variable {f : FrozenGroups} {id : Nat} {group : Group}

variable (found : f.group? id = some group)

include found

theorem incRef_eq : f.incRef id = f.put id (some { group with count := group.count + 1 }) := by
  simp only [incRef,found]

end References

def references (h : Heap) (groups : List Group) (group : Group) : Nat :=
  ((groups.filter fun other => other.id != group.id).flatMap fun other =>
    other.members.flatMap h.children).countP fun x => decide (x ∈ group.members)

namespace Partition

variable {h : Heap} {root r : Nat} {parts : List (List Nat)}

variable (partition : Partition h root parts) (f : FrozenGroups) (within : Within parts r root)

include partition f within

end Partition

end FrozenGroups

end StagedLisp
