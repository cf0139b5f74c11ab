import StagedLisp.Proofs.Eval.Sharing
import StagedLisp.Proofs.Shape.Passes

/-! Values of bindings that are inferred to be trees. A cell that such a value reaches by two paths
is one that two names have in common, although their alias groups keep them apart. -/
namespace StagedLisp

open List Value

variable {b shape : Shape} {shapes : List Shape} {i : Nat}

namespace Shape

variable {a : Shape} {parts : List Shape}

theorem eq_unknown_of_rank (below : a.rank ≤ b.rank) (none : b = unknown) : a = unknown := by
  subst none
  cases a <;> first | rfl | cases below

theorem joinAll_known (known : ∀ a ∈ shapes, a ≠ unknown) (member : a ∈ shapes) : joinAll shapes ≠ unknown := by
  intro none
  exact known a member (eq_unknown_of_rank ((rank_foldl shapes unknown).2 a member) none)

theorem construction_known (known : ∀ a ∈ parts, a ≠ unknown) (aliasing : Bool) :
    construction parts aliasing ≠ unknown := by
  unfold construction
  split
  · split <;> decide
  · next mixed =>
    split
    · decide
    · cases parts with
      | nil => simp at mixed
      | cons a rest => exact joinAll_known known mem_cons_self

theorem construction_tree {aliasing : Bool} (tree : construction parts aliasing = .tree) :
    (∀ a ∈ parts, a = .tree) ∧ aliasing = false := by
  unfold construction at tree
  split at tree
  · next all =>
    refine ⟨by simpa using all,?_⟩
    cases aliasing with
    | true => simp at tree
    | false => rfl
  · split at tree
    · cases tree
    · next other => exact absurd tree other

theorem choice_tree (first : a ≠ unknown) (second : b ≠ unknown)
    (tree : joinAll [unknown,a,b] = .tree) : a = .tree ∧ b = .tree := by
  cases a <;> cases b <;> simp_all [joinAll,join,rank]

theorem Infers.known {s : Shapes} {names : List String} {budget : Nat} {e : Value}
    (infers : Infers s names budget e shape) (known : ∀ x ∈ names, s.shapeOf x ≠ unknown) :
    shape ≠ unknown := by
  induction budget generalizing e shape with
  | zero => cases infers
  | succ budget ih =>
    have each {args : List Value} {shapes : List Shape} (parts : List.Forall₂ (Infers s names budget) args shapes) :
        ∀ a ∈ shapes, a ≠ unknown := by
      induction parts with
      | nil => simp
      | cons first _ rest =>
        exact forall_mem_cons.mpr ⟨ih first,rest⟩
    cases infers with
    | int | nil | quote | scalar => decide
    | name listed => exact known _ listed
    | construct _ _ _ parts => exact construction_known (each parts) _
    | project _ _ _ inner => exact ih inner
    | misuse _ _ _ _ parts =>
      unfold ofCall
      split
      · decide
      · assumption
    | @choice _ _ _ _ a b _ first second =>
      have left := ih first
      have right := ih second
      cases a <;> cases b <;> simp_all [joinAll,join,rank]

end Shape

namespace Primitive

theorem ofItems_count {items : List Value} {next : Nat} (old : ∀ a ∈ items, ∀ c ∈ a.cells, c < next) (c : Nat) :
    (ofItems items next).1.cells.count c ≤ if c < next then (items.flatMap cells).count c else 1 := by
  induction items with
  | nil => simp [ofItems,cells]
  | cons item items ih =>
    have earlier := ih fun a member => old a (.tail _ member)
    obtain ⟨grows,tail⟩ := ofItems_cells items next
    simp only [ofItems,cells,count_cons,count_append,flatMap_cons,beq_iff_eq]
    split at earlier
    · next below =>
      rw [if_pos below,if_neg (by omega)]
      omega
    · next above =>
      have absent : item.cells.count c = 0 :=
        count_eq_zero.mpr fun member => above (old item mem_cons_self c member)
      rw [if_neg above,absent]
      split
      · next here =>
        -- The cell in front is the last new one.
        have behind : (ofItems items next).1.cells.count c = 0 := by
          apply count_eq_zero.mpr
          intro member
          rcases tail c member with ⟨_,upper⟩ | ⟨a,listed,inside⟩
          · omega
          · exact above (old a (.tail _ listed) c inside)
        omega
      · omega

theorem Makes.count {op : Primitive} {args : List Value} {next next' : Nat} {v : Value}
    (makes : op.Makes args next v next') (built : op = .cons ∨ op = .list)
    (old : ∀ a ∈ args, ∀ c ∈ a.cells, c < next) (c : Nat) :
    v.cells.count c ≤ if c < next then (args.flatMap Value.cells).count c else 1 := by
  cases makes with
  | scalar => simp [Value.cells]
  | @cons head tail =>
    have inHead : c ∈ head.cells → c < next := old head (by simp) c
    have inTail : c ∈ tail.cells → c < next := old tail (by simp) c
    simp only [Value.cells,count_cons,count_append,flatMap_cons,flatMap_nil,append_nil,beq_iff_eq]
    by_cases below : c < next
    · rw [if_pos below,if_neg (by omega)]
      omega
    · rw [if_neg below,count_eq_zero.mpr fun member => below (inHead member),
        count_eq_zero.mpr fun member => below (inTail member)]
      split <;> omega
  | list => exact ofItems_count old c
  | car | cdr => simp at built

section Uses

variable {op : Primitive} {args : List Value} {next next' : Nat} {v : Value} (makes : op.Makes args next v next')

include makes

theorem Makes.single (projects : op = .car ∨ op = .cdr) : args.length = 1 := by
  cases makes with
  | car | cdr => rfl
  | scalar _ made => rcases projects with rfl | rfl <;> cases made
  | cons | list => simp at projects

theorem Makes.integer (computes : op.isScalar) : v.cells = [] := by
  cases makes with
  | scalar => rfl
  | _ => cases computes

end Uses

theorem Makes.projected {op : Primitive} {a v : Value} {next next' : Nat}
    (makes : op.Makes [a] next v next') (projects : op = .car ∨ op = .cdr) (c : Nat) :
    v.cells.count c ≤ a.cells.count c := by
  cases makes with
  | car | cdr =>
    rw [Value.cells,count_cons,count_append]
    omega
  | scalar _ made => rcases projects with rfl | rfl <;> cases made
  | list => simp at projects

end Primitive

namespace Shapes

/-- Two names that no group has in common have the cell in common. -/
def Misses (s : Shapes) (lookup : String → Option Value) (c : Nat) : Prop :=
  ∃ x y w w', s.overlap x y = false ∧ lookup x = some w ∧ lookup y = some w' ∧ c ∈ w.cells ∧ c ∈ w'.cells

theorem mayAlias_false {s : Shapes} {a b : Value} (apart : s.mayAlias a b = false) {x y : String}
    (first : x ∈ structureNames a) (second : y ∈ structureNames b) : s.overlap x y = false := by
  simp only [mayAlias,any_eq_false] at apart
  have row := apart x first
  simp only [any_eq_true,not_exists,not_and,Bool.not_eq_true] at row
  exact row y second

theorem anyAlias_cons {s : Shapes} {a : Value} {rest : List Value} (apart : s.anyAlias (a :: rest) = false) :
    (∀ b ∈ rest, s.mayAlias a b = false) ∧ s.anyAlias rest = false := by
  rw [anyAlias,Bool.or_eq_false_iff,any_eq_false] at apart
  exact ⟨fun b member => by simpa using apart.1 b member,apart.2⟩

end Shapes

variable {lookup : String → Option Value} {s : Shapes}

variable {e : Value} {es args vs : List Value} {next next' c : Nat} {op : Primitive}
  {part : Value → Nat → Value → Nat → Prop}

/-- A cell that an operand has in common with later ones comes from two names on either side. -/
theorem Origin.missed {mid : Nat} (fresh : ∀ a ∈ e :: es, Fresh lookup next a)
    (distinct : ((e :: es).flatMap cells).Nodup) (apart : ∀ a ∈ es, s.mayAlias e a = false)
    (grows : next ≤ mid) (first : Origin lookup (structureNames e) e.cells next mid c)
    (second : Origin lookup (es.flatMap structureNames) (es.flatMap cells) mid next' c) :
    s.Misses lookup c := by
  have own := fresh e mem_cons_self
  have stands (inside : c ∈ es.flatMap cells) : ∃ a ∈ es, Fresh lookup next a ∧ c ∈ a.cells := by
    obtain ⟨a,listed,member⟩ := mem_flatMap.mp inside
    exact ⟨a,listed,fresh a (.tail _ listed),member⟩
  rcases first with ⟨lower,upper⟩ | inside | ⟨x,named,w,found,member⟩
  · rcases second with ⟨lower',_⟩ | inside' | ⟨_,_,_,found',member'⟩
    · omega
    · obtain ⟨a,_,old,here⟩ := stands inside'
      have := old.below c here
      omega
    · have := (own.named _ _ c found' member').1
      omega
  · rcases second with ⟨lower',_⟩ | inside' | ⟨_,_,_,found',member'⟩
    · have := own.below c inside
      omega
    · rw [flatMap_cons,nodup_append] at distinct
      exact absurd rfl (distinct.2.2 c inside c inside')
    · exact absurd inside (own.named _ _ c found' member').2
  · rcases second with ⟨lower',_⟩ | inside' | ⟨y,named',w',found',member'⟩
    · have := (own.named _ _ c found member).1
      omega
    · obtain ⟨a,_,old,here⟩ := stands inside'
      exact absurd here (old.named _ _ c found member).2
    · obtain ⟨a,listed,among⟩ := mem_flatMap.mp named'
      have kept := Shapes.mayAlias_false (apart a listed) named among
      exact ⟨x,y,w,w',kept,found,found',member,member'⟩

/-- A cell that is reached twice through operands kept apart is missed. -/
theorem Each.missed (each : Each part es next vs next')
    (origin : ∀ {e v : Value} {next next' : Nat}, part e next v next' → next ≤ next' ∧
      ∀ c ∈ v.cells, Origin lookup (structureNames e) e.cells next next' c)
    (single : ∀ e ∈ es, ∀ {v : Value} {next next' : Nat}, part e next v next' →
      Fresh lookup next e → ∀ c, 2 ≤ v.cells.count c → s.Misses lookup c)
    (fresh : ∀ e ∈ es, Fresh lookup next e) (distinct : (es.flatMap cells).Nodup)
    (apart : s.anyAlias es = false) (twice : 2 ≤ (vs.flatMap cells).count c) :
    s.Misses lookup c := by
  induction each with
  | nil => simp at twice
  | @cons e v es vs next mid next' first rest ih =>
    obtain ⟨kept,others⟩ := Shapes.anyAlias_cons apart
    obtain ⟨grows,cells⟩ := origin first
    rw [flatMap_cons,count_append] at twice
    by_cases here : 2 ≤ v.cells.count c
    · exact single e mem_cons_self first (fresh e mem_cons_self) c here
    by_cases later : 2 ≤ (vs.flatMap Value.cells).count c
    · refine ih (fun a member => single a (.tail _ member)) ?_ ?_ others later
      · exact fun a member => (fresh a (.tail _ member)).later grows
      · rw [flatMap_cons] at distinct
        exact distinct.of_append_right
    · have inFirst : c ∈ v.cells := count_pos_iff.mp (by omega)
      have inRest : c ∈ vs.flatMap Value.cells := count_pos_iff.mp (by omega)
      obtain ⟨w,listed,inside⟩ := mem_flatMap.mp inRest
      exact (cells c inFirst).missed fresh distinct kept grows ((rest.origin origin).2 w listed c inside)

theorem call_items {keyword : String} {parts : List Value} (call : e.formItems? = some (.sym op.name :: args))
    (form : e.formItems? = some (.sym keyword :: parts)) : isKeyword keyword = false := by
  cases call.symm.trans form
  exact op.name_not_keyword

theorem call_same {op' : Primitive} {args' : List Value} (first : e.formItems? = some (.sym op.name :: args))
    (second : e.formItems? = some (.sym op'.name :: args')) : op' = op ∧ args' = args := by
  have same := Option.some.inj (second.symm.trans first)
  rw [List.cons.injEq,sym.injEq] at same
  exact ⟨Primitive.name_inj same.1,same.2⟩

theorem forall₂_left {R : Value → Shape → Prop}
    (parts : List.Forall₂ R args shapes) {a : Value} (member : a ∈ args) : ∃ b ∈ shapes, R a b := by
  induction parts with
  | nil => cases member
  | cons first _ ih =>
    rcases mem_cons.mp member with rfl | member
    · exact ⟨_,mem_cons_self,first⟩
    · obtain ⟨b,listed,related⟩ := ih member
      exact ⟨b,mem_cons_of_mem _ listed,related⟩

theorem Each.length (each : Each part es next vs next') : es.length = vs.length := by
  induction each with
  | nil => rfl
  | cons _ _ ih => rw [length_cons,length_cons,ih]

section Cases

variable {names : List String} {depth budget : Nat} {e v : Value} {next mid next' : Nat}
  {args values : List Value} {op : Primitive}
  (known : ∀ x v, lookup x = some v → v.isDatum) (fresh : Fresh lookup next e)
  (items : e.formItems? = some (.sym op.name :: args))
  (parts : Each (Yields lookup depth) args next values mid)
  (makes : op.Makes values mid v next')

include known fresh items parts

theorem operands_old : ∀ a ∈ values, ∀ c ∈ a.cells, c < mid := by
  obtain ⟨grows,cells⟩ := parts.origin (Yields.origin structureNames_coverParts known)
  intro a listed c inside
  rcases cells a listed c inside with ⟨_,upper⟩ | own | ⟨_,_,_,found,member⟩
  · exact upper
  · obtain ⟨b,among,member⟩ := mem_flatMap.mp own
    exact (fresh.below c (item_cells items among member)).trans_le grows
  · exact (fresh.named _ _ c found member).1.trans_le grows

include makes

theorem construct_missed (built : op = .cons ∨ op = .list)
    (single : ∀ a ∈ args, ∀ {v : Value} {next next' : Nat}, Yields lookup depth a next v next' →
      Fresh lookup next a → ∀ c, 2 ≤ v.cells.count c → s.Misses lookup c)
    (apart : s.anyAlias args = false) {c : Nat} (twice : 2 ≤ v.cells.count c) :
    s.Misses lookup c := by
  have count := makes.count built (operands_old known fresh items parts) c
  split at count
  · apply parts.missed (Yields.origin structureNames_coverParts known) single _ _ apart (twice.trans count)
    · exact fun a member => fresh.part items member
    · obtain ⟨_,_,listed⟩ := formItems_cells items
      have distinct := (listed.nodup fresh.nodup).of_cons
      rw [flatMap_cons] at distinct
      exact distinct.of_append_right
  · omega

end Cases

/-- Cells that a value inferred to be a tree reaches twice are missed, if those of the names are. -/
theorem Yields.missed (known : ∀ x v, lookup x = some v → v.isDatum) {names : List String}
    (shaped : ∀ x ∈ names, s.shapeOf x ≠ .unknown)
    (trees : ∀ x w, lookup x = some w → s.shapeOf x = .tree → ∀ c, 2 ≤ w.cells.count c →
      s.Misses lookup c) {depth budget : Nat} {v : Value}
    (yields : Yields lookup depth e next v next') (infers : Shape.Infers s names budget e shape)
    (tree : shape = .tree) (fresh : Fresh lookup next e) (twice : 2 ≤ v.cells.count c) :
    s.Misses lookup c := by
  induction depth generalizing budget e v next next' shape c with
  | zero => cases yields
  | succ depth ih =>
    cases budget with
    | zero => cases infers
    | succ budget =>
    cases yields with
    | int | nil => simp [cells] at twice
    | name found =>
      cases infers with
      | name listed => exact trees _ _ found tree c twice
      | quote items | construct _ _ items | project _ _ items | misuse _ _ items
      | scalar _ _ items | choice items => cases items
    | quote items _ =>
      have distinct := (fresh.part items mem_cons_self).nodup
      have once := nodup_iff_count_le_one.mp distinct c
      omega
    | call op items parts applied =>
      have makes := Primitive.apply_makes (parts.datum (Yields.datum known)) applied
      cases infers with
      | int | nil | name => cases items
      | quote items' | choice items' => exact absurd (call_items items items') (by decide)
      | construct op' built items' shapes =>
        obtain ⟨rfl,rfl⟩ := call_same items items'
        obtain ⟨all,apart⟩ := Shape.construction_tree tree
        apply construct_missed known fresh items parts makes built _ apart twice
        intro a member v next next' yields fresh c twice
        obtain ⟨b,listed,inferred⟩ := forall₂_left shapes member
        exact ih yields inferred (all b listed) fresh twice
      | project op' projects items' inner =>
        obtain ⟨rfl,rfl⟩ := call_same items items'
        obtain _ | ⟨first,_ | _⟩ := parts
        have part : 2 ≤ _ := twice.trans (makes.projected projects c)
        exact ih first inner tree (fresh.part items mem_cons_self) part
      | misuse op' projects items' several shapes =>
        obtain ⟨rfl,rfl⟩ := call_same items items'
        exact absurd (parts.length.trans (makes.single projects)) several
      | scalar op' computes items' =>
        obtain ⟨rfl,rfl⟩ := call_same items items'
        simp [makes.integer computes] at twice
    | @choice _ test onTrue onFalse t _ _ _ _ items tested chosen =>
      cases infers with
      | int | nil | name => cases items
      | quote items' => exact absurd (items.symm.trans items') (by simp)
      | construct _ _ items' | project _ _ items' | misuse _ _ items' | scalar _ _ items' =>
        exact absurd (call_items items' items) (by decide)
      | choice items' first second =>
        cases items.symm.trans items'
        obtain ⟨left,right⟩ := Shape.choice_tree (first.known shaped) (second.known shaped) tree
        have grows := (tested.origin structureNames_coverParts known).1
        split at chosen
        · exact ih chosen first left ((fresh.part items (by simp)).later grows) twice
        · exact ih chosen second right ((fresh.part items (by simp)).later grows) twice

namespace Shape

variable {form : LetForm} {budget : Nat}

theorem Settled.known (settled : Settled form budget s) {b : Binding}
    (bound : form.bindings[i]? = some b) : s.shapeOf b.name ≠ unknown := by
  induction i using Nat.strongRecOn generalizing b with
  | ind i ih =>
    obtain ⟨t,shape,keeps,infers,covers⟩ := settled i b bound
    have inferred : shape ≠ unknown := by
      apply infers.known
      intro x member
      rw [← keeps.shapes x member]
      obtain ⟨j,before,c,found,rfl⟩ := LetForm.binding_of_name member
      exact ih j before found
    exact fun none => inferred (eq_unknown_of_rank covers none)

theorem eq_tree_of_rank {a : Shape} (below : a.rank ≤ b.rank) (known : a ≠ unknown)
    (tree : b = .tree) : a = .tree := by
  subst tree
  cases a with
  | unknown => exact absurd rfl known
  | tree => rfl
  | dag | cyclic => simp [rank] at below

end Shape

theorem Shapes.Misses.congr {t : Shapes} {lookup' : String → Option Value}
    (misses : s.Misses lookup c) (more : ∀ x w, lookup x = some w → lookup' x = some w)
    (same : ∀ x y w w', lookup x = some w → lookup y = some w' → t.overlap x y = s.overlap x y) :
    t.Misses lookup' c := by
  obtain ⟨x,y,w,w',apart,first,second,inFirst,inSecond⟩ := misses
  exact ⟨x,y,w,w',(same x y w w' first second).trans apart,more x w first,more y w' second,inFirst,inSecond⟩

namespace LetForm.Evaluates

variable {form : LetForm} {values : List Value} {depth budget : Nat} {marks : Nat → Nat}

/-- Cells that the value of a tree reaches twice are missed, in every settled form. -/
theorem missed (evaluates : form.Evaluates values depth marks)
    (settled : Shape.Settled form budget s) (distinct : form.cells.Nodup)
    (below : ∀ c ∈ form.cells, c < marks 0) {b : Binding} {v : Value}
    (bound : form.bindings[i]? = some b) (value : values[i]? = some v)
    (tree : s.shapeOf b.name = .tree) {c : Nat} (twice : 2 ≤ v.cells.count c) :
    s.Misses (form.valueBefore values i) c := by
  induction i using Nat.strongRecOn generalizing b v c with
  | ind i ih =>
    obtain ⟨t,shape,keeps,infers,covers⟩ := settled i b bound
    have shaped : ∀ x ∈ form.names.take i, t.shapeOf x ≠ .unknown := by
      intro x member
      rw [← keeps.shapes x member]
      obtain ⟨j,_,c,found,rfl⟩ := binding_of_name member
      exact settled.known found
    have earlier {x : String} {w : Value} (found : form.valueBefore values i x = some w) :
        x ∈ form.names.take i := by
      obtain ⟨j,before,b',bound',rfl,_⟩ := valueBefore_position found
      exact name_mem_take bound' before
    have trees : ∀ x w, form.valueBefore values i x = some w → t.shapeOf x = .tree →
        ∀ c, 2 ≤ w.cells.count c → t.Misses (form.valueBefore values i) c := by
      intro x w found shape c twice
      rw [← keeps.shapes x (earlier found)] at shape
      obtain ⟨j,before,b',bound',rfl,value'⟩ := valueBefore_position found
      have more (y : String) (u : Value) (known : form.valueBefore values j y = some u) :
          form.valueBefore values i y = some u := valueBefore_mono before.le known
      apply (ih j before bound' value' shape twice).congr more
      intro y z u u' first second
      exact (keeps.overlaps y (earlier (more y u first)) z (earlier (more z u' second))).symm
    have misses := (evaluates.yields i b v bound value).2.missed evaluates.known shaped trees infers
      (Shape.eq_tree_of_rank covers (infers.known shaped) tree)
      (evaluates.fresh distinct below bound) twice
    apply misses.congr fun _ _ found => found
    intro y z u u' first second
    exact keeps.overlaps y (earlier first) z (earlier second)

end LetForm.Evaluates

/-- The value of a binding inferred to be a tree is one exactly if none of its cells reached twice is
common to two names whose groups keep them apart. -/
theorem ShapeResult.tree_shaped_iff {d : Datum} {form : LetForm} {start fuel level depth : Nat}
    {store store' : Store} {values : List Value} {staged : Bool}
    (read : LetForm.ofValue (Value.ofDatum d start).1 = .ok form) (kind : form.kind = .plain)
    (plain : form.IsPlain) (body : Plain form.names form.body)
    (within : (ofForm form {} depth).shapes.skipped = 0)
    (ready : Ready store level [] fun _ => none) (stored : (Value.ofDatum d start).2 ≤ store.next)
    (ran : Ran (Eval.bindEach (eval fuel) level [] false form.bindings) store (values,staged)
      store') {i : Nat} {b : Binding} {v : Value} (bound : form.bindings[i]? = some b)
    (value : values[i]? = some v) (tree : (ofForm form {} depth).shapes.shapeOf b.name = .tree) :
    v.TreeShaped ↔ ∀ x y w w' c, (ofForm form {} depth).shapes.overlap x y = false →
      form.valueOf values x = some w → form.valueOf values y = some w' → c ∈ w.cells →
      c ∈ w'.cells → ¬ v.Shares c := by
  constructor
  · intro shaped _ _ _ _ c _ _ _ _ _
    exact shaped c
  · intro disjoint c shares
    obtain ⟨distinct,nodup,marks,evaluates,below⟩ :=
      LetForm.evaluates_of_read read plain ready stored ran
    obtain ⟨x,y,w,w',apart,foundX,foundY,inX,inY⟩ := evaluates.missed
      (ofForm_settled kind distinct plain body within) nodup below bound value tree
      (Value.shares_iff.mp shares)
    exact disjoint x y w w' c apart (LetForm.valueOf_before foundX) (LetForm.valueOf_before foundY)
      inX inY shares

/-- `(let ((x (quote (1 2))) (y (cons x 3)) (z (cons x y))) z)` -/
def shared : Datum :=
  .ofList [.sym "let",
    .ofList [
      .ofList [.sym "x",.ofList [.sym "quote",.ofList [.int 1,.int 2]]],
      .ofList [.sym "y",.ofList [.sym "cons",.sym "x",.int 3]],
      .ofList [.sym "z",.ofList [.sym "cons",.sym "x",.sym "y"]]],
    .sym "z"]

def sharedForm : LetForm where
  kind := .plain
  bindings := [
    ⟨"x",.pair 3 (.sym "quote") (.pair 2 (.pair 1 (.int 1) (.pair 0 (.int 2) .nil)) .nil)⟩,
    ⟨"y",.pair 8 (.sym "cons") (.pair 7 (.sym "x") (.pair 6 (.int 3) .nil))⟩,
    ⟨"z",.pair 13 (.sym "cons") (.pair 12 (.sym "x") (.pair 11 (.sym "y") .nil))⟩]
  body := .sym "z"

def sharedValues : List Value :=
  let x := .pair 1 (.int 1) (.pair 0 (.int 2) .nil)
  let y := .pair 22 x (.int 3)
  [x,y,.pair 23 x y]

theorem sharedForm_plain : sharedForm.IsPlain := by
  intro i b found
  have both {names : List String} {x y : Value} (first : Plain names x) (second : Plain names y) :
      ∀ a ∈ [x,y], Plain names a := by simp [first,second]
  match i with
  | 0 =>
    cases found
    exact .quote rfl rfl
  | 1 =>
    cases found
    exact .call .cons rfl (both (.name (by decide)) (.int 3))
  | 2 =>
    cases found
    exact .call .cons rfl (both (.name (by decide)) (.name (by decide)))
  | i + 3 => cases found

/-- The groups do not follow a name into a new cell, so a cell around `x` and `y` passes for a tree,
although both reach the cells of `x`. -/
theorem ShapeResult.tree_value_shares :
    LetForm.ofValue (Value.ofDatum shared 0).1 = .ok sharedForm ∧ sharedForm.IsPlain ∧
      Plain sharedForm.names sharedForm.body ∧
      (ofForm sharedForm {} 256).shapes.skipped = 0 ∧
      (ofForm sharedForm {} 256).shapes.shapeOf "z" = .tree ∧
      ∃ z store, Ran (Eval.bindEach (eval 3) 0 [] false sharedForm.bindings)
        { (Store.addRoot {}).2 with next := (Value.ofDatum shared 0).2 } (sharedValues,false) store ∧
        sharedValues[2]? = some z ∧ ¬ z.TreeShaped := by
  refine ⟨rfl,sharedForm_plain,.name (by decide),by decide +kernel,by decide +kernel,_,_,rfl,rfl,?_⟩
  intro shaped
  exact shaped 1 (Value.shares_iff.mpr (by decide +kernel))

theorem ShapeResult.shared_tree_shaped_iff :
    (ofForm sharedForm {} 256).shapes.overlap "x" "y" = false ∧
      (ofForm sharedForm {} 256).shapes.shapeOf "z" = .tree ∧
      ∀ z, sharedValues[2]? = some z → (z.TreeShaped ↔
        ∀ x y w w' c, (ofForm sharedForm {} 256).shapes.overlap x y = false →
          sharedForm.valueOf sharedValues x = some w → sharedForm.valueOf sharedValues y = some w' →
          c ∈ w.cells → c ∈ w'.cells → ¬ z.Shares c) := by
  have tree : (ofForm sharedForm {} 256).shapes.shapeOf "z" = .tree := by decide +kernel
  refine ⟨by decide +kernel,tree,?_⟩
  intro z value
  have read : LetForm.ofValue (Value.ofDatum shared 0).1 = .ok sharedForm := rfl
  have body : Plain sharedForm.names sharedForm.body := .name (by decide)
  have bound : sharedForm.bindings[2]? = some sharedForm.bindings[2] := rfl
  obtain ⟨store,ran⟩ : ∃ store, Ran (Eval.bindEach (eval 3) 0 [] false sharedForm.bindings)
      { (Store.addRoot {}).2 with next := (Value.ofDatum shared 0).2 } (sharedValues,false) store :=
    ⟨_,rfl⟩
  exact tree_shaped_iff read rfl sharedForm_plain body (by decide +kernel) (root_ready _)
    le_rfl ran bound value tree

end StagedLisp
