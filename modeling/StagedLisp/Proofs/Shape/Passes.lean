import Mathlib.Data.List.Forall2
import StagedLisp.Proofs.Form.Plain
import StagedLisp.Proofs.Form.Provenance
import StagedLisp.Proofs.Shape.Groups

/-! Inference over plain expressions follows rules, and the shapes that a form ends with satisfy the
rules for every binding at once. -/
namespace StagedLisp

open List Shapes

namespace Shape

/-- The computation leaves the state as it is, with a result as stated, unless it skips a part. -/
def Reads {α : Type} (x : ShapeM α) (post : Shapes → α → Prop) : Prop :=
  ∀ s, s.skipped ≤ (x.run s).2.skipped ∧ ((x.run s).2.skipped = s.skipped → (x.run s).2 = s ∧ post s (x.run s).1)

namespace Reads

variable {α β : Type} {x : ShapeM α} {post : Shapes → α → Prop} {f : α → ShapeM β}

theorem pure {a : α} (holds : ∀ s, post s a) : Reads (Pure.pure a : ShapeM α) post :=
  fun s => ⟨le_rfl,fun _ => ⟨rfl,holds s⟩⟩

theorem bind {post' : Shapes → β → Prop} (first : Reads x post)
    (second : ∀ a, Reads (f a) fun s b => post s a → post' s b) : Reads (x >>= f) post' := by
  intro s
  have run : (x >>= f).run s = (f (x.run s).1).run (x.run s).2 := rfl
  obtain ⟨grows,result⟩ := first s
  obtain ⟨grows',result'⟩ := second (x.run s).1 (x.run s).2
  rw [run]
  refine ⟨grows.trans grows',?_⟩
  intro none
  obtain ⟨same,holds⟩ := result (by omega)
  obtain ⟨same',holds'⟩ := result' (by omega)
  rw [same] at same' holds'
  rw [same]
  exact ⟨same',holds' holds⟩

theorem get : Reads (MonadState.get : ShapeM Shapes) fun s t => t = s :=
  fun _ => ⟨le_rfl,fun _ => ⟨rfl,rfl⟩⟩

theorem mono {post' : Shapes → α → Prop} (reads : Reads x post)
    (weaker : ∀ s a, post s a → post' s a) : Reads x post' := by
  intro s
  obtain ⟨grows,result⟩ := reads s
  exact ⟨grows,fun none => (result none).imp_right (weaker _ _)⟩

theorem mapM {each : Shapes → α → β → Prop} {items : List α}
    (reads : ∀ a ∈ items, Reads (f a) fun s b => each s a b) :
    Reads (items.mapM f) fun s results => List.Forall₂ (each s) items results := by
  induction items with
  | nil => exact pure fun _ => .nil
  | cons item items ih =>
    rw [mapM_cons]
    refine (reads item mem_cons_self).bind fun b => ?_
    refine (ih fun a member => reads a (.tail _ member)).bind fun bs => ?_
    exact pure fun s others first => .cons first others

end Reads

/-- The shape of one expression, where `part` is for its parts. -/
inductive Rule.Infers (s : Shapes) (names : List String) (part : Value → Shape → Prop) :
    Value → Shape → Prop where
  | int {n} : Infers s names part (.int n) .tree
  | nil : Infers s names part .nil .tree
  | name {x} (known : x ∈ names) : Infers s names part (.sym x) (s.shapeOf x)
  | quote {e datum} (items : e.formItems? = some [.sym "quote",datum]) :
      Infers s names part e .tree
  | construct {e args shapes} (op : Primitive)
      (makes : op = .cons ∨ op = .list) (items : e.formItems? = some (.sym op.name :: args))
      (parts : List.Forall₂ part args shapes) :
      Infers s names part e (construction shapes (s.anyAlias args))
  | project {e operand shape} (op : Primitive) (projects : op = .car ∨ op = .cdr)
      (items : e.formItems? = some [.sym op.name,operand]) (inner : part operand shape) :
      Infers s names part e shape
  | misuse {e args shapes} (op : Primitive)
      (projects : op = .car ∨ op = .cdr) (items : e.formItems? = some (.sym op.name :: args))
      (several : args.length ≠ 1) (parts : List.Forall₂ part args shapes) :
      Infers s names part e (ofCall shapes)
  | scalar {e args} (op : Primitive) (computes : op.isScalar)
      (items : e.formItems? = some (.sym op.name :: args)) : Infers s names part e .tree
  | choice {e test onTrue onFalse a b}
      (items : e.formItems? = some [.sym "if",test,onTrue,onFalse]) (first : part onTrue a)
      (second : part onFalse b) : Infers s names part e (joinAll [.unknown,a,b])

/-- The shape of an expression with parts nested less deep than the budget. -/
def Infers (s : Shapes) (names : List String) : Nat → Value → Shape → Prop
  | 0 => fun _ _ => False
  | budget + 1 => Rule.Infers s names (Infers s names budget)

section Rules

variable {names : List String} {part deeper : Value → ShapeM Shape} {each : Shapes → Value → Shape → Prop}
  (reads : ∀ a, Plain names a → Reads (part a) fun s shape => each s a shape)

include reads

variable {args : List Value} {e : Value}

theorem projection_reads (op : Primitive) (projects : op = .car ∨ op = .cdr)
    (items : e.formItems? = some (.sym op.name :: args)) (plain : ∀ a ∈ args, Plain names a) :
    Reads (match args with
      | [operand] => part operand
      | _ => return ofCall (← args.mapM part)) fun s shape => Rule.Infers s names (each s) e shape := by
  split
  · next operand =>
    exact (reads operand (plain operand (by simp))).mono fun s shape inner =>
      .project op projects items inner
  · next several =>
    have parts : Reads (args.mapM part) fun s shapes => List.Forall₂ (each s) args shapes :=
      .mapM fun a member => reads a (plain a member)
    refine parts.bind fun shapes => .pure fun s listed => .misuse op projects items ?_ listed
    intro single
    obtain ⟨operand,rfl⟩ := length_eq_one_iff.mp single
    exact several operand rfl

theorem call_reads (op : Primitive) (items : e.formItems? = some (.sym op.name :: args))
    (plain : ∀ a ∈ args, Plain names a) :
    Reads (ofForm part deeper (.sym op.name :: args)) fun s shape =>
      Rule.Infers s names (each s) e shape := by
  have parts : Reads (args.mapM part) fun s shapes => List.Forall₂ (each s) args shapes :=
    .mapM fun a member => reads a (plain a member)
  have making (makes : op = .cons ∨ op = .list) :
      Reads (do let shapes ← args.mapM part; return construction shapes ((← get).anyAlias args))
        fun s shape => Rule.Infers s names (each s) e shape := by
    refine parts.bind fun shapes => Reads.get.bind fun t => .pure fun s => ?_
    rintro rfl listed
    exact .construct op makes items listed
  have computing (computes : op.isScalar) : Reads (do let _ ← args.mapM part; return tree)
      fun s shape => Rule.Infers s names (each s) e shape :=
    parts.bind fun _ => .pure fun s _ => .scalar op computes items
  cases op with
  | cons => exact making (.inl rfl)
  | list => exact making (.inr rfl)
  | car => exact projection_reads reads .car (.inl rfl) items plain
  | cdr => exact projection_reads reads .cdr (.inr rfl) items plain
  | _ => exact computing rfl

theorem ofValue_reads (plain : Plain names e) : Reads (ofValue (ofForm part deeper) e) fun s shape =>
      Rule.Infers s names (each s) e shape := by
  have form {items : List Value} (listed : e.formItems? = some items) :
      ofValue (ofForm part deeper) e = ofForm part deeper items := by
    cases e with
    | pair cell head tail =>
      rw [ofValue,listed]
    | _ => cases listed
  cases plain with
  | int | nil => exact .pure fun _ => by constructor
  | name known =>
    refine Reads.get.bind fun t => .pure fun s => ?_
    rintro rfl
    exact .name known
  | quote items _ =>
    rw [form items]
    exact .pure fun _ => .quote items
  | call op items parts =>
    rw [form items]
    exact call_reads reads op items parts
  | @choice _ test onTrue onFalse items tests first second =>
    rw [form items]
    have both : Reads ([onTrue,onFalse].mapM part) fun s shapes =>
        List.Forall₂ (each s) [onTrue,onFalse] shapes := by
      apply Reads.mapM
      intro a member
      rcases mem_cons.mp member with rfl | member
      · exact reads _ first
      · cases mem_singleton.mp member
        exact reads _ second
    refine (reads test tests).bind fun _ => both.bind fun shapes => .pure fun s listed _ => ?_
    obtain _ | ⟨a,_ | ⟨b,_ | _⟩⟩ := listed
    exact .choice items a b

end Rules

variable {bindings : List Binding} {names : List String}

theorem infer_reads (budget : Nat) {e : Value} (plain : Plain names e) :
    Reads (infer budget e) fun s shape => Infers s names budget e shape := by
  have empty (e : Value) : Reads (infer 0 e) fun s shape => Infers s names 0 e shape := by
    intro s
    exact ⟨Nat.le_succ _,fun same => absurd same (Nat.succ_ne_self _)⟩
  induction budget generalizing e with
  | zero => exact empty e
  | succ budget ih =>
    cases budget with
    | zero => exact ofValue_reads (fun a _ => empty a) plain
    | succ budget => exact ofValue_reads (fun a plain => ih plain) plain

theorem rank_le_join (a b : Shape) : b.rank ≤ (a.join b).rank := by
  cases a <;> cases b <;> decide

theorem rank_join_left (a b : Shape) : a.rank ≤ (a.join b).rank := by
  cases a <;> cases b <;> decide

theorem rank_foldl (shapes : List Shape) (start : Shape) : start.rank ≤ (shapes.foldl join start).rank ∧
      ∀ a ∈ shapes, a.rank ≤ (shapes.foldl join start).rank := by
  induction shapes generalizing start with
  | nil => simp
  | cons shape shapes ih =>
    obtain ⟨first,rest⟩ := ih (start.join shape)
    refine ⟨(rank_join_left start shape).trans first,?_⟩
    intro a member
    rcases mem_cons.mp member with rfl | member
    · exact (rank_le_join start a).trans first
    · exact rest a member

def visit (infer : Value → ShapeM Shape) (b : Binding) (s : Shapes) : Shapes :=
  ((infer b.init).run s).2.record b ((infer b.init).run s).1

def visitM (infer : Value → ShapeM Shape) (b : Binding) : ShapeM Unit := do
  let shape ← infer b.init
  modify fun s => s.grow b.name shape
  match exposed? b.init with
  | some (source,_) =>
    if source = b.name then Pure.pure () else modify fun s => s.merge b.name source
  | none => Pure.pure ()

theorem visitM_run (infer : Value → ShapeM Shape) (b : Binding) (s : Shapes) :
    (visitM infer b).run s = ((),visit infer b s) := by
  simp only [visitM,visit,record]
  cases exposed? b.init with
  | none => rfl
  | some entry =>
    obtain ⟨source,projected⟩ := entry
    by_cases same : source = b.name
    · simp only [if_pos same]
      rfl
    · simp only [if_neg same]
      rfl

theorem visitsM_run (infer : Value → ShapeM Shape) (bindings : List Binding) (s : Shapes) :
    (bindings.forM (visitM infer)).run s = ((),bindings.foldl (fun s b => visit infer b s) s) := by
  induction bindings generalizing s with
  | nil => rfl
  | cons b bindings ih =>
    have first : ((b :: bindings).forM (visitM infer)).run s =
        (bindings.forM (visitM infer)).run ((visitM infer b).run s).2 := rfl
    rw [first,visitM_run,ih,foldl_cons]

theorem pass_run (infer : Value → ShapeM Shape) {form : LetForm} (plain : form.kind = .plain)
    (s : Shapes) : (pass infer form).run s =
      (infer form.body).run (form.bindings.foldl (fun s b => visit infer b s) s) := by
  have whole : (pass infer form).run s = (infer form.body).run ((form.bindings.forM (visitM infer)).run s).2 := by
    unfold pass
    rw [plain]
    rfl
  rw [whole,visitsM_run]

/-- The shape of a binding covers what the rules infer from the shapes and groups of the names
before it. -/
def Fits (form : LetForm) (budget : Nat) (s : Shapes) (i : Nat) (b : Binding) : Prop :=
  ∃ t shape, Keeps form i t s ∧ Infers t (form.names.take i) budget b.init shape ∧
    shape.rank ≤ (s.shapeOf b.name).rank

def Settled (form : LetForm) (budget : Nat) (s : Shapes) : Prop :=
  ∀ (i : Nat) b, form.bindings[i]? = some b → Fits form budget s i b

variable {form : LetForm} {budget : Nat}

theorem visit_skipped {b : Binding} (plain : Plain names b.init) (s : Shapes) :
    s.skipped ≤ (visit (infer budget) b s).skipped := by
  rw [visit,record_skipped]
  exact (infer_reads budget plain s).1

theorem visits_skipped (plain : ∀ b ∈ bindings, ∃ names, Plain names b.init) (s : Shapes) :
    s.skipped ≤ (bindings.foldl (fun s b => visit (infer budget) b s) s).skipped := by
  induction bindings generalizing s with
  | nil => exact le_rfl
  | cons b bindings ih =>
    obtain ⟨names,first⟩ := plain b mem_cons_self
    exact Nat.le_trans (visit_skipped first s) (ih (fun b member => plain b (.tail _ member)) _)

/-- A run over the bindings from the `i`-th on keeps what is known of those before, and makes the
others fit. -/
theorem visits_settle (distinct : form.names.Nodup) (plain : form.IsPlain) {i n : Nat}
    {s : Shapes} (suffix : form.bindings.drop i = bindings) (reached : i ≤ n)
    (grouped : Grouped form n s)
    (quiet : (bindings.foldl (fun s b => visit (infer budget) b s) s).skipped = s.skipped) :
    let last := bindings.foldl (fun s b => visit (infer budget) b s) s
    (∃ m, Grouped form m last) ∧ Keeps form i s last ∧
      ∀ (j : Nat) b, i ≤ j → form.bindings[j]? = some b → Fits form budget last j b := by
  induction bindings generalizing i n s with
  | nil =>
    refine ⟨⟨n,grouped⟩,.refl form i s,?_⟩
    intro j b after found
    have beyond : form.bindings.length ≤ i := by simpa using suffix
    have inside := lt_of_getElem? found
    omega
  | cons b bindings ih =>
    obtain ⟨found,rest⟩ := LetForm.binding_next suffix
    have initial := plain i b found
    have others : ∀ c ∈ bindings, ∃ names, Plain names c.init := by
      intro c member
      exact plain.init c (mem_of_mem_drop (rest ▸ member))
    have before : s.skipped ≤ (visit (infer budget) b s).skipped := visit_skipped initial s
    have after : (visit (infer budget) b s).skipped ≤ (bindings.foldl
        (fun s b => visit (infer budget) b s) (visit (infer budget) b s)).skipped :=
      visits_skipped others _
    rw [foldl_cons] at quiet
    have still : ((infer budget b.init).run s).2.skipped = s.skipped := by
      have visited : (visit (infer budget) b s).skipped = ((infer budget b.init).run s).2.skipped :=
        record_skipped ..
      omega
    obtain ⟨same,infers⟩ := (infer_reads budget initial s).2 still
    obtain ⟨shape,inferred⟩ : ∃ shape, shape = ((infer budget b.init).run s).1 := ⟨_,rfl⟩
    have visited : visit (infer budget) b s = s.record b shape := by rw [visit,same,inferred]
    rw [← inferred] at infers
    have earlier (x : String) (projected : Bool) (exposed : exposed? b.init = some (x,projected)) :
        x ∈ form.names.take i := initial.exposed exposed
    have keeps := record_keeps shape grouped reached distinct found earlier
    obtain ⟨regrouped,kept,fit⟩ := ih rest (Nat.le_max_right n (i + 1))
      (record_grouped shape grouped reached distinct found earlier)
      (by rw [← visited]; omega)
    rw [foldl_cons,visited]
    refine ⟨regrouped,keeps.trans (kept.mono i.le_succ),?_⟩
    intro j c beyond bound
    rcases Nat.lt_or_eq_of_le beyond with later | rfl
    · exact fit j c later bound
    · cases found.symm.trans bound
      refine ⟨s,shape,keeps.trans (kept.mono i.le_succ),infers,?_⟩
      rw [kept.shapes b.name (LetForm.name_mem_take found i.lt_succ_self)]
      rw [record_shape shape grouped reached distinct found earlier,if_pos rfl]
      exact rank_le_join _ _

section Form

variable (kind : form.kind = .plain) (distinct : form.names.Nodup) (plain : form.IsPlain)
  {names : List String} (body : Plain names form.body)

include kind plain body

theorem pass_skipped (s : Shapes) : s.skipped ≤ ((pass (infer budget) form).run s).2.skipped := by
  rw [pass_run _ kind]
  exact (visits_skipped plain.init s).trans (infer_reads budget body _).1

include distinct

theorem pass_settles {n : Nat} {s : Shapes} (grouped : Grouped form n s)
    (quiet : ((pass (infer budget) form).run s).2.skipped = s.skipped) :
    (∃ m, Grouped form m ((pass (infer budget) form).run s).2) ∧
      Settled form budget ((pass (infer budget) form).run s).2 := by
  rw [pass_run _ kind] at quiet ⊢
  have first : s.skipped ≤ (form.bindings.foldl (fun s b => visit (infer budget) b s) s).skipped :=
    visits_skipped plain.init s
  obtain ⟨grows,result⟩ := infer_reads budget body (form.bindings.foldl (fun s b => visit (infer budget) b s) s)
  obtain ⟨same,_⟩ := result (by omega)
  have still : (form.bindings.foldl (fun s b => visit (infer budget) b s) s).skipped = s.skipped := by
    omega
  obtain ⟨regrouped,_,fit⟩ := visits_settle distinct plain drop_zero (Nat.zero_le n) grouped still
  rw [same]
  exact ⟨regrouped,fun i b found => fit i b (Nat.zero_le i) found⟩

end Form

end Shape

namespace ShapeResult

open Shape

variable {form : LetForm} {budget : Nat} {names : List String}

theorem iterate_succ (pass : ShapeM Shape) (rounds iterations : Nat) (s : Shapes)
    (shape : Shape) : iterate pass (rounds + 1) iterations s shape =
      if (pass.run { s with changed := false }).2.changed then
        iterate pass rounds (iterations + 1) (pass.run { s with changed := false }).2
          (pass.run { s with changed := false }).1
      else ⟨(pass.run { s with changed := false }).2,(pass.run { s with changed := false }).1,iterations⟩ := rfl

section Form

variable (kind : form.kind = .plain) (distinct : form.names.Nodup) (plain : form.IsPlain)
  (body : Plain names form.body)

include kind plain body

theorem iterate_skipped (budget rounds iterations : Nat) (s : Shapes) (shape : Shape) : s.skipped ≤
    (iterate (pass (infer budget) form) rounds iterations s shape).shapes.skipped := by
  induction rounds generalizing iterations s shape with
  | zero => exact le_rfl
  | succ rounds ih =>
    have grows : s.skipped ≤ ((pass (infer budget) form).run { s with changed := false }).2.skipped :=
      pass_skipped kind plain body { s with changed := false }
    rw [iterate_succ]
    split
    · exact grows.trans (ih ..)
    · exact grows

include distinct

/-- However many passes are made, the last one leaves a settled form. -/
theorem iterate_settled {rounds iterations n : Nat} {s : Shapes} {shape : Shape}
    (grouped : Grouped form n s) (started : 0 < rounds ∨ Settled form budget s)
    (quiet : (iterate (pass (infer budget) form) rounds iterations s shape).shapes.skipped = s.skipped) :
    Settled form budget (iterate (pass (infer budget) form) rounds iterations s shape).shapes := by
  induction rounds generalizing iterations n s shape with
  | zero => exact started.resolve_left (lt_irrefl 0)
  | succ rounds ih =>
    have cleared : Grouped form n { s with changed := false } := grouped.congr (fun _ => rfl) rfl
    have grows : s.skipped ≤ ((pass (infer budget) form).run { s with changed := false }).2.skipped :=
      pass_skipped kind plain body { s with changed := false }
    rw [iterate_succ] at quiet ⊢
    split at quiet
    · next changed =>
      rw [if_pos changed]
      have after := iterate_skipped kind plain body budget rounds (iterations + 1)
        ((pass (infer budget) form).run { s with changed := false }).2
        ((pass (infer budget) form).run { s with changed := false }).1
      have still : ((pass (infer budget) form).run { s with changed := false }).2.skipped = s.skipped := by omega
      obtain ⟨⟨_,regrouped⟩,settled⟩ := pass_settles kind distinct plain body cleared still
      exact ih regrouped (.inr settled) (by omega)
    · next unchanged =>
      rw [if_neg unchanged]
      exact (pass_settles kind distinct plain body cleared quiet).2

theorem ofForm_settled {depth : Nat} (quiet : (ofForm form {} depth).shapes.skipped = 0) :
    Settled form (depth - 1) (ofForm form {} depth).shapes := by
  have empty : Grouped form 0 {} := ⟨nofun,fun _ _ => rfl,fun _ _ _ _ before => absurd before (Nat.not_lt_zero _)⟩
  exact iterate_settled kind distinct plain body empty (.inl (Nat.succ_pos _)) quiet

end Form

end ShapeResult

end StagedLisp
