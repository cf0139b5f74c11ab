import StagedLisp.Proofs.Eval.Plain
import StagedLisp.Proofs.Form.Names
import StagedLisp.Proofs.Form.Provenance

/-! Where the cells of a value come from: they are new, or stand in the expression itself, or belong
to the value of a variable that the expression reads. -/
namespace StagedLisp

open List Value

variable {v first a : Value} {es vs : List Value} {c j : Nat}

namespace Primitive

theorem ofItems_cells (items : List Value) (next : Nat) :
    next ≤ (ofItems items next).2 ∧ ∀ c ∈ (ofItems items next).1.cells,
      next ≤ c ∧ c < (ofItems items next).2 ∨ ∃ a ∈ items, c ∈ a.cells := by
  induction items with
  | nil => simp [ofItems,cells]
  | cons item items ih =>
    obtain ⟨grows,rest⟩ := ih
    refine ⟨Nat.le_succ_of_le grows,?_⟩
    intro c member
    simp only [ofItems,cells,mem_cons,mem_append] at member ⊢
    rcases member with rfl | here | there
    · exact .inl ⟨grows,by omega⟩
    · exact .inr ⟨item,.inl rfl,here⟩
    · rcases rest c there with ⟨lower,upper⟩ | ⟨a,listed,inside⟩
      · exact .inl ⟨lower,by omega⟩
      · exact .inr ⟨a,.inr listed,inside⟩

theorem Makes.cells {op : Primitive} {args : List Value} {next next' : Nat}
    (makes : op.Makes args next v next') : next ≤ next' ∧ ∀ c ∈ v.cells,
      next ≤ c ∧ c < next' ∨ op.isScalar = false ∧ ∃ a ∈ args, c ∈ a.cells := by
  cases makes with
  | scalar => simp [Value.cells]
  | @cons head tail =>
    refine ⟨Nat.le_succ _,?_⟩
    intro c member
    simp only [Value.cells,mem_cons,mem_append] at member
    rcases member with rfl | inHead | inTail
    · exact .inl ⟨le_rfl,Nat.lt_succ_self _⟩
    · exact .inr ⟨rfl,head,by simp,inHead⟩
    · exact .inr ⟨rfl,tail,by simp,inTail⟩
  | list =>
    obtain ⟨grows,each⟩ := ofItems_cells args next
    refine ⟨grows,?_⟩
    intro c member
    exact (each c member).imp_right fun listed => ⟨rfl,listed⟩
  | car | cdr =>
    refine ⟨le_rfl,?_⟩
    intro c member
    exact .inr ⟨rfl,_,mem_singleton_self _,by simp [Value.cells,member]⟩

end Primitive

variable {lookup : String → Option Value}

variable {next next' depth : Nat} {e : Value} {args : List Value}

theorem Each.datum {part : Value → Nat → Value → Nat → Prop} (each : Each part es next vs next')
    (datum : ∀ {e v : Value} {next next' : Nat}, part e next v next' → v.isDatum) :
    ∀ v ∈ vs, v.isDatum := by
  induction each with
  | nil => simp
  | cons first _ ih =>
    exact forall_mem_cons.mpr ⟨datum first,ih⟩

theorem Yields.datum (known : ∀ x v, lookup x = some v → v.isDatum)
    (yields : Yields lookup depth e next v next') : v.isDatum := by
  induction depth generalizing e v next next' with
  | zero => cases yields
  | succ depth ih =>
    cases yields with
    | int | nil => rfl
    | name found => exact known _ _ found
    | quote _ data => exact data
    | call op _ parts applied =>
      have data := parts.datum ih
      exact (Primitive.apply_makes data applied).datum data
    | choice _ _ chosen => exact ih chosen

/-- The cell is new, or stands in the expression, or belongs to the value of one of the names. -/
def Origin (lookup : String → Option Value) (names : List String) (own : List Nat) (next next' c : Nat) : Prop :=
  next ≤ c ∧ c < next' ∨ c ∈ own ∨ ∃ x ∈ names, ∃ w, lookup x = some w ∧ c ∈ w.cells

theorem Origin.mono {names names' : List String} {own own' : List Nat} {a a' b b' : Nat}
    (origin : Origin lookup names own a b c) (more : names ⊆ names') (further : own ⊆ own')
    (lower : a' ≤ a) (upper : b ≤ b') : Origin lookup names' own' a' b' c := by
  rcases origin with ⟨first,last⟩ | inside | ⟨x,listed,w,found,member⟩
  · exact .inl ⟨lower.trans first,last.trans_le upper⟩
  · exact .inr (.inl (further inside))
  · exact .inr (.inr ⟨x,more listed,w,found,member⟩)

/-- Lists of names, by depth, that hold every variable whose value can become a part of the value
of an expression. -/
structure CoversParts (names : Nat → Value → List String) : Prop where
  symbol : ∀ (depth : Nat) (x : String), x ∈ names (depth + 1) (.sym x)
  operand : ∀ {depth : Nat} {e a : Value} {op : Primitive} {args : List Value},
    e.formItems? = some (.sym op.name :: args) → op.isScalar = false → a ∈ args →
      names depth a ⊆ names (depth + 1) e
  branch : ∀ {depth : Nat} {e test onTrue onFalse : Value} (first : Bool),
    e.formItems? = some [.sym "if",test,onTrue,onFalse] →
      names depth (if first then onTrue else onFalse) ⊆ names (depth + 1) e

theorem structureNames_coverParts : CoversParts fun _ => structureNames where
  symbol _ x := by simp [structureNames,selected]
  operand items made member x listed :=
    (mem_structureNames_call items made).mpr ⟨_,member,listed⟩
  branch first items x listed := by
    rw [mem_structureNames_choice items]
    cases first
    · exact .inr listed
    · exact .inl listed

theorem freeNames_coverParts : CoversParts fun depth => freeNames depth [] [] where
  symbol _ _ := mem_freeNames_symbol.mpr ⟨rfl,not_mem_nil⟩
  operand items _ member x listed := by
    have view := View.of?_items items
    rw [View.ofItems_call] at view
    apply (mem_freeNames_form view).mpr
    exact ⟨_,mem_map_of_mem (.tail _ member),listed⟩
  branch {depth e test onTrue onFalse} first items x listed := by
    have view : View.of? e = some (.conditional test [onTrue,onFalse]) := View.of?_items items
    refine (mem_freeNames_form view).mpr ⟨([],if first then onTrue else onFalse),?_,listed⟩
    cases first <;> simp [View.parts]

theorem item_cells (items : e.formItems? = some (first :: args)) (member : a ∈ args) : a.cells ⊆ e.cells := by
  obtain ⟨_,_,listed⟩ := formItems_cells items
  intro c inside
  apply listed.subset
  simp only [flatMap_cons,mem_cons,mem_append,mem_flatMap]
  exact .inr (.inr ⟨a,member,inside⟩)

theorem Each.origin {part : Value → Nat → Value → Nat → Prop} {names : Value → List String}
    (each : Each part es next vs next')
    (origin : ∀ {e v : Value} {next next' : Nat}, part e next v next' → next ≤ next' ∧
      ∀ c ∈ v.cells, Origin lookup (names e) e.cells next next' c) :
    next ≤ next' ∧ ∀ v ∈ vs, ∀ c ∈ v.cells, Origin lookup (es.flatMap names) (es.flatMap cells) next next' c := by
  induction each with
  | nil => simp
  | cons first _ ih =>
    obtain ⟨grows,cells⟩ := origin first
    obtain ⟨grows',others⟩ := ih
    refine ⟨grows.trans grows',?_⟩
    intro w member c inside
    simp only [flatMap_cons]
    rcases mem_cons.mp member with rfl | member
    · exact (cells c inside).mono (subset_append_left _ _) (subset_append_left _ _) le_rfl grows'
    · exact (others w member c inside).mono (subset_append_right _ _) (subset_append_right _ _) grows le_rfl

theorem Yields.origin {names : Nat → Value → List String} (covers : CoversParts names)
    (known : ∀ x v, lookup x = some v → v.isDatum)
    (yields : Yields lookup depth e next v next') :
    next ≤ next' ∧ ∀ c ∈ v.cells, Origin lookup (names depth e) e.cells next next' c := by
  induction depth generalizing e v next next' with
  | zero => cases yields
  | succ depth ih =>
    cases yields with
    | int | nil => simp [cells]
    | name found =>
      exact ⟨le_rfl,fun c member => .inr (.inr ⟨_,covers.symbol _ _,_,found,member⟩)⟩
    | quote items _ =>
      exact ⟨le_rfl,fun c member => .inr (.inl (item_cells items (by simp) member))⟩
    | call op items parts applied =>
      obtain ⟨grows,operands⟩ := parts.origin ih
      have data := parts.datum (Yields.datum known)
      obtain ⟨grows',cells⟩ := (Primitive.apply_makes data applied).cells
      refine ⟨grows.trans grows',?_⟩
      intro c member
      rcases cells c member with ⟨lower,upper⟩ | ⟨made,a,listed,inside⟩
      · exact .inl ⟨grows.trans lower,upper⟩
      · apply (operands a listed c inside).mono _ _ le_rfl grows'
        · intro x found
          obtain ⟨b,among,x⟩ := mem_flatMap.mp found
          exact covers.operand items made among x
        · intro d found
          obtain ⟨b,among,d⟩ := mem_flatMap.mp found
          exact item_cells items among d
    | @choice _ _ onTrue onFalse t _ _ _ _ items tested chosen =>
      obtain ⟨grows,_⟩ := ih tested
      obtain ⟨grows',cells⟩ := ih chosen
      refine ⟨grows.trans grows',?_⟩
      intro c member
      apply (cells c member).mono (covers.branch t.truthy items) _ grows le_rfl
      split
      · exact item_cells items (by simp)
      · exact item_cells items (by simp)

/-- The cells of the expression are distinct and older than `next`, as are those of the names'
values, which are others. -/
structure Fresh (lookup : String → Option Value) (next : Nat) (e : Value) : Prop where
  nodup : e.cells.Nodup
  below : ∀ c ∈ e.cells, c < next
  named : ∀ x w c, lookup x = some w → c ∈ w.cells → c < next ∧ c ∉ e.cells

theorem Fresh.later (fresh : Fresh lookup next e) (grows : next ≤ next') : Fresh lookup next' e where
  nodup := fresh.nodup
  below c member := (fresh.below c member).trans_le grows
  named x w c found member :=
    (fresh.named x w c found member).imp_left fun below => below.trans_le grows

theorem Fresh.part (fresh : Fresh lookup next e)
    (items : e.formItems? = some (first :: args)) (member : a ∈ args) : Fresh lookup next a where
  nodup := by
    obtain ⟨_,_,listed⟩ := formItems_cells items
    have distinct := (listed.nodup fresh.nodup).of_cons
    rw [flatMap_cons] at distinct
    exact (nodup_flatMap.mp distinct.of_append_right).1 a member
  below c inside := fresh.below c (item_cells items member inside)
  named x w c found inside := by
    obtain ⟨below,other⟩ := fresh.named x w c found inside
    exact ⟨below,fun stands => other (item_cells items member stands)⟩

namespace LetForm

variable {form : LetForm} {values : List Value} {i : Nat}

def valueOf (form : LetForm) (values : List Value) (x : String) : Option Value :=
  (form.names.zip values).lookup x

variable {x : String} {w : Value} {entries : List (String × Value)}

theorem lookup_of_initial {first : List (String × Value)} (initial : first <+: entries)
    (found : first.lookup x = some w) : entries.lookup x = some w := by
  obtain ⟨rest,rfl⟩ := initial
  rw [lookup_append,found]
  rfl

theorem valueOf_before (found : form.valueBefore values i x = some w) : form.valueOf values x = some w :=
  lookup_of_initial ( take_prefix i _) found

theorem valueBefore_mono (before : j ≤ i) (found : form.valueBefore values j x = some w) :
    form.valueBefore values i x = some w :=
  lookup_of_initial (take_prefix_take_left before) found

theorem mem_of_lookup (found : entries.lookup x = some w) : (x,w) ∈ entries := by
  obtain ⟨before,after,rfl,_⟩ := lookup_eq_some_iff.mp found
  simp

theorem valueBefore_position (found : form.valueBefore values i x = some w) :
    ∃ j < i, ∃ b, form.bindings[j]? = some b ∧ b.name = x ∧ values[j]? = some w := by
  obtain ⟨j,below,same⟩ := mem_take_iff_getElem.mp (mem_of_lookup found)
  rw [getElem_zip,Prod.mk.injEq] at same
  have inside : j < form.bindings.length ∧ j < values.length := by
    simp only [length_zip,names,length_map] at below
    omega
  refine ⟨j,by omega,form.bindings[j],getElem?_eq_getElem inside.1,?_,?_⟩
  · rw [← same.1]
    simp [names]
  · rw [← same.2]
    exact getElem?_eq_getElem inside.2

theorem valueBefore_of_position (distinct : form.names.Nodup) {b : Binding}
    (bound : form.bindings[i]? = some b) (value : values[i]? = some v) {n : Nat} (before : i < n) :
    form.valueBefore values n b.name = some v := by
  have entry : ((form.names.zip values).take n)[i]? = some (b.name,v) := by
    rw [getElem?_take_of_lt before,getElem?_zip_eq_some]
    exact ⟨name_at bound,value⟩
  obtain ⟨inside,here⟩ := List.getElem?_eq_some_iff.mp entry
  apply lookup_eq_some_iff.mpr
  refine ⟨((form.names.zip values).take n).take i,((form.names.zip values).take n).drop (i + 1),?_,?_⟩
  · rw [← here,getElem_cons_drop,take_append_drop]
  · intro entry earlier
    rw [take_take,Nat.min_eq_left before.le,List.zip,take_zipWith] at earlier
    have named := (of_mem_zip earlier).1
    rw [bne_iff_ne]
    exact fun same => name_new bound distinct (same ▸ named)

namespace Evaluates

variable {depth : Nat} {marks : Nat → Nat} (evaluates : form.Evaluates values depth marks)

include evaluates

theorem known (x : String) (w : Value) (found : form.valueBefore values i x = some w) : w.isDatum := by
  obtain ⟨j,_,b,bound,_,value⟩ := valueBefore_position found
  exact (evaluates.yields j b w bound value).1

variable {b : Binding}

theorem step (bound : form.bindings[i]? = some b) : marks i ≤ marks (i + 1) := by
  have inside := lt_of_getElem? bound
  have value := getElem?_eq_getElem (evaluates.full.symm ▸ inside)
  exact ((evaluates.yields i b _ bound value).2.origin structureNames_coverParts evaluates.known).1

theorem marks_mono (before : i ≤ j) (inside : j ≤ form.bindings.length) : marks i ≤ marks j := by
  induction before with
  | refl => exact le_rfl
  | step _ ih =>
    exact (ih (by omega)).trans (evaluates.step (getElem?_eq_getElem inside))

/-- The cells of a value are new since the start or stand in an initialiser up to its own. -/
theorem cell (bound : form.bindings[i]? = some b) (value : values[i]? = some v) (member : c ∈ v.cells) :
    marks 0 ≤ c ∧ c < marks (i + 1) ∨ ∃ j ≤ i, ∃ b', form.bindings[j]? = some b' ∧ c ∈ b'.init.cells := by
  induction i using Nat.strongRecOn generalizing b v with
  | ind i ih =>
    have inside := lt_of_getElem? bound
    have start := evaluates.marks_mono (Nat.zero_le i) inside.le
    obtain ⟨_,origin⟩ := (evaluates.yields i b v bound value).2.origin structureNames_coverParts evaluates.known
    rcases origin c member with ⟨lower,upper⟩ | own | ⟨x,_,w,found,among⟩
    · exact .inl ⟨start.trans lower,upper⟩
    · exact .inr ⟨i,le_rfl,b,bound,own⟩
    · obtain ⟨j,before,b',bound',_,value'⟩ := valueBefore_position found
      rcases ih j before bound' value' among with ⟨lower,upper⟩ | ⟨k,first,b'',bound'',stands⟩
      · have later := evaluates.marks_mono (i := j + 1) (j := i + 1) (by omega) inside
        exact .inl ⟨lower,upper.trans_le later⟩
      · exact .inr ⟨k,by omega,b'',bound'',stands⟩

theorem fresh (distinct : form.cells.Nodup) (below : ∀ c ∈ form.cells, c < marks 0)
    (bound : form.bindings[i]? = some b) : Fresh (form.valueBefore values i) (marks i) b.init := by
  have inside := lt_of_getElem? bound
  have start := evaluates.marks_mono (Nat.zero_le i) inside.le
  refine ⟨init_nodup distinct bound,?_,?_⟩
  · intro c member
    exact (below c (init_cells bound member)).trans_le start
  · intro x w c found member
    obtain ⟨j,before,b',bound',_,value'⟩ := valueBefore_position found
    rcases evaluates.cell bound' value' member with ⟨lower,upper⟩ | ⟨k,first,b'',bound'',stands⟩
    · refine ⟨upper.trans_le (evaluates.marks_mono before inside.le),?_⟩
      intro own
      have := below c (init_cells bound own)
      omega
    · refine ⟨(below c (init_cells bound'' stands)).trans_le start,?_⟩
      exact fun own => init_disjoint distinct bound'' bound (by omega) stands own

end Evaluates

/-- A plain form that was read and has run has evaluated its bindings one after the other, with cells
that are newer than its own. -/
theorem evaluates_of_read {d : Datum} {start fuel level : Nat} {store store' : Store}
    {staged : Bool} (read : ofValue (ofDatum d start).1 = .ok form) (plain : form.IsPlain)
    (ready : Ready store level [] fun _ => none) (stored : (ofDatum d start).2 ≤ store.next)
    (ran : Ran (Eval.bindEach (eval fuel) level [] false form.bindings) store (values,staged) store') :
    form.names.Nodup ∧ form.cells.Nodup ∧
      ∃ marks, form.Evaluates values fuel marks ∧ ∀ c ∈ form.cells, c < marks 0 := by
  obtain ⟨distinct,cells⟩ := ofValue_ok read
  obtain ⟨_,nodup,old⟩ := ofDatum_cells d start
  obtain ⟨marks,first,evaluates⟩ := bindEach_evaluates distinct plain ready ran
  refine ⟨distinct,cells.nodup nodup,marks,evaluates,?_⟩
  intro c member
  have := (old c (cells.subset member)).2
  omega

end LetForm

end StagedLisp
