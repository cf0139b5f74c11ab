import StagedLisp.Proofs.Record.Search

/-! Cycles of owning fields in a registry. Registrations keep the names of records and of the fields
of each record apart; a field is demoted exactly when the search reports it and its strength is not
written down. -/
namespace StagedLisp

open List OwnershipGraph Function
open OwnershipGraph (Walk IsCycle OnCycle Leads)

/-- The field refers to a record or to a cell and is not written to be weak or untraced. -/
def Field.IsOwning (f : Field) : Prop :=
  f.isReference ∧ f.annotation ≠ some .weak ∧ f.annotation ≠ some .untraced

namespace Field

variable {f : Field}

theorem declared_isTraced : f.declared.isTraced ↔ f.IsOwning := by
  obtain ⟨name,typeName,written,demoted⟩ := f
  cases written with
  | none => simp [declared,isTraced,strength,IsOwning,isReference]
  | some s => cases s <;> simp [declared,isTraced,strength,IsOwning,isReference]

theorem isWeak_of_unpinned (unpinned : f.annotation = none) : f.isWeak ↔ f.demoted := by
  cases weak : f.demoted <;> simp [isWeak,strength,unpinned,weak]

theorem owning_of_traced (traced : f.isTraced) : f.IsOwning := by
  obtain ⟨name,typeName,written,demoted⟩ := f
  cases written with
  | none => exact ⟨(Bool.and_eq_true_iff.mp traced).1,nofun,nofun⟩
  | some s => cases s <;> simp_all [isTraced,strength,IsOwning,isReference]

end Field

theorem duplicateField?_none {fields : List Field} (distinct : duplicateField? fields = none) :
    (fields.map Field.name).Nodup := by
  have step (seen : List String) (free : duplicateField?.go seen fields = none) :
      (fields.map Field.name).Nodup ∧ ∀ f ∈ fields, f.name ∉ seen := by
    clear distinct
    induction fields generalizing seen with
    | nil => exact ⟨nodup_nil,fun _ none => nomatch none⟩
    | cons f rest ih =>
      rw [duplicateField?.go] at free
      split at free
      · cases free
      · next new =>
        obtain ⟨nodup,apart⟩ := ih (f.name :: seen) free
        refine ⟨nodup_cons.mpr ⟨?_,nodup⟩,?_⟩
        · intro member
          obtain ⟨g,listed,same⟩ := mem_map.mp member
          exact apart g listed (same ▸ mem_cons_self)
        · intro g member
          rcases mem_cons.mp member with rfl | member
          · simpa using new
          · exact fun old => apart g member (.tail _ old)
  exact (step [] distinct).1

/-- No two records have one name, and no two fields of a record do. -/
structure WellNamed (records : List Record) : Prop where
  apart : (records.map Record.name).Nodup
  fields : ∀ r ∈ records, (r.fields.map Field.name).Nodup

namespace Registry

/-- Registers one record after the other. A registration that is refused changes nothing. -/
def registerAll (r : Registry) : List (String × List Field) → Registry
  | [] => r
  | (name,fields) :: rest =>
    match r.register name fields with
    | .ok next => next.registerAll rest
    | .error _ => r.registerAll rest

def fieldAt? (r : Registry) (step : String × String) : Option Field :=
  (r.record? step.1).bind fun record => record.field? step.2

/-- The field is of a kind, and refers to a registered record. -/
def Refers (r : Registry) (kind : Field → Prop) (owner field target : String) : Prop :=
  ∃ f, r.fieldAt? (owner,field) = some f ∧ kind f ∧ f.typeName = target ∧ r.contains target

/-- The edges of the ownership graph, as fields are written. -/
def Owns (r : Registry) : String → String → String → Prop := r.Refers Field.IsOwning

/-- The fields that scans and releases follow. -/
def Traces (r : Registry) : String → String → String → Prop := r.Refers fun f => f.isTraced

/-- The search reports the field as closing a cycle. -/
def Reports (r : Registry) (step : String × String) : Prop :=
  ∃ i, r.records.findIdx? (·.name == step.1) = some i ∧ (i,step.2) ∈ closing r.records

structure Settled (r : Registry) : Prop where
  named : WellNamed r.records
  demoted : ∀ (i : Nat) record f, r.records[i]? = some record → f ∈ record.fields →
    (f.demoted ↔ f.annotation = none ∧ (i,f.name) ∈ closing r.records)
  edges : ∀ edge, edge ∈ r.edges ↔ ∃ record ∈ r.records, ∃ f ∈ record.fields, f.IsOwning ∧
    edge = ⟨record.name,f.name,f.typeName,f.demoted⟩

variable {records : List Record}

theorem put_named {record : Record} (named : WellNamed records)
    (fields : (record.fields.map Field.name).Nodup) : WellNamed (put records record) := by
  unfold put
  split
  · have same : (records.map fun r => if r.name == record.name then record else r).map Record.name =
        records.map Record.name := by
      rw [map_map]
      refine map_congr_left fun r _ => ?_
      by_cases found : r.name = record.name <;> simp [found]
    refine ⟨same ▸ named.apart,fun r member => ?_⟩
    obtain ⟨old,listed,rfl⟩ := mem_map.mp member
    split
    · exact fields
    · exact named.fields old listed
  · next new =>
    refine ⟨?_,fun r member => ?_⟩
    · rw [map_append]
      refine nodup_append.mpr ⟨named.apart,nodup_singleton _,?_⟩
      intro x member y last same
      obtain ⟨r,listed,rfl⟩ := mem_map.mp member
      cases mem_singleton.mp last
      exact new (any_eq_true.mpr ⟨r,listed,by simpa using same⟩)
    · rcases mem_append.mp member with old | last
      · exact named.fields r old
      · cases mem_singleton.mp last
        exact fields

theorem closing_declared (records : List Record) : closing (records.map Record.declared) = closing records := by
  have same : arcs (records.map Record.declared) = arcs records := by
    unfold arcs
    rw [map_map]
    congr 1
    refine map_congr_left fun r _ => ?_
    have fixed : r.declared.declared = r.declared := by
      simp [Record.declared,Field.declared,comp_def]
    simp only [comp_apply,fixed,findIdx?_map]
    rfl
  unfold closing
  rw [same,length_map]

theorem ofRecords_record (records : List Record) (i : Nat) :
    (ofRecords records).records[i]? = (records[i]?).map fun r =>
      demote (closing (records.map Record.declared)) r.declared i := by
  simp only [ofRecords,getElem?_map,getElem?_zipIdx]
  cases records[i]? <;> simp

theorem ofRecords_declared (records : List Record) :
    (ofRecords records).records.map Record.declared = records.map Record.declared := by
  refine ext_getElem? fun i => ?_
  rw [getElem?_map,getElem?_map,ofRecords_record]
  cases records[i]? with
  | none => rfl
  | some r => simp [demote,Record.declared,Field.declared,comp_def]

theorem ofRecords_settled (named : WellNamed records) : (ofRecords records).Settled := by
  have closing : closing (ofRecords records).records = closing (records.map Record.declared) := by
    rw [← closing_declared,ofRecords_declared]
  refine ⟨?_,?_,?_⟩
  · have names (rs : List Record) : rs.map Record.name = (rs.map Record.declared).map Record.name := by
      simp [Record.declared,Function.comp_def]
    refine ⟨?_,fun r member => ?_⟩
    · rw [names,ofRecords_declared,← names]
      exact named.apart
    · obtain ⟨i,found⟩ := mem_iff_getElem?.mp member
      rw [ofRecords_record] at found
      obtain ⟨old,listed,rfl⟩ := Option.map_eq_some_iff.mp found
      have distinct := named.fields old (mem_of_getElem? listed)
      simpa [demote,Record.declared,Field.declared,Function.comp_def] using distinct
  · intro i record f found member
    rw [ofRecords_record] at found
    obtain ⟨old,_,rfl⟩ := Option.map_eq_some_iff.mp found
    obtain ⟨g,_,rfl⟩ := mem_map.mp member
    rw [closing]
    simp [Field.isPinned]
  · intro edge
    show edge ∈ (ofRecords records).records.flatMap _ ↔ _
    rw [mem_flatMap]
    refine exists_congr fun record => and_congr_right fun _ => ?_
    simp only [mem_map,mem_filter,Field.declared_isTraced,and_assoc]
    exact exists_congr fun f => and_congr_right fun _ => and_congr_right fun _ => eq_comm

theorem registerAll_settled (calls : List (String × List Field)) : (registerAll {} calls).Settled := by
  have step (r : Registry) (settled : r.Settled) : (r.registerAll calls).Settled := by
    induction calls generalizing r with
    | nil => exact settled
    | cons call rest ih =>
      obtain ⟨name,fields⟩ := call
      rw [registerAll]
      cases distinct : duplicateField? fields with
      | some field => simpa [register,distinct,fail] using ih r settled
      | none =>
        simp only [register,distinct]
        exact ih _ (ofRecords_settled (put_named settled.named (duplicateField?_none distinct)))
  have start : WellNamed [] := ⟨nodup_nil,fun _ none => nomatch none⟩
  exact step {} (ofRecords_settled start)

theorem find?_named {α : Type} {name : α → String} {list : List α} (apart : (list.map name).Nodup)
    {x : String} {a : α} : list.find? (fun a => name a == x) = some a ↔ a ∈ list ∧ name a = x := by
  induction list with
  | nil => simp
  | cons first rest ih =>
    obtain ⟨new,apart⟩ := nodup_cons.mp apart
    rw [find?_cons]
    by_cases same : name first = x
    · subst same
      simp only [beq_self_eq_true,Option.some.injEq,mem_cons]
      constructor
      · rintro rfl
        exact ⟨.inl rfl,rfl⟩
      · rintro ⟨rfl | later,same⟩
        · rfl
        · exact absurd (same ▸ mem_map_of_mem later) new
    · simp only [beq_eq_false_iff_ne.mpr same,ih apart,mem_cons]
      constructor
      · exact fun ⟨later,named⟩ => ⟨.inr later,named⟩
      · rintro ⟨rfl | later,named⟩
        · exact absurd named same
        · exact ⟨later,named⟩

namespace Settled

variable {r : Registry} {owner field target : String} {f : Field} {steps : List (String × String)}

variable (settled : r.Settled)

include settled

theorem findIdx?_iff {name : String} {i : Nat} : r.records.findIdx? (·.name == name) = some i ↔
      ∃ record, r.records[i]? = some record ∧ record.name = name := by
  constructor
  · intro found
    obtain ⟨inside,same,_⟩ := findIdx?_eq_some_iff_getElem.mp found
    exact ⟨_,getElem?_eq_getElem inside,by simpa using same⟩
  · rintro ⟨record,found,rfl⟩
    obtain ⟨inside,rfl⟩ := List.getElem?_eq_some_iff.mp found
    refine findIdx?_eq_some_iff_getElem.mpr ⟨inside,by simp,fun j before => ?_⟩
    have apart := (nodup_iff_getElem?_ne_getElem?.mp settled.named.apart) j i before (by simpa using inside)
    simpa [getElem?_eq_getElem,inside,Nat.lt_trans before inside] using apart

theorem fieldAt?_iff : r.fieldAt? (owner,field) = some f ↔
    ∃ (i : Nat) (record : Record), r.records[i]? = some record ∧ record.name = owner ∧
      f ∈ record.fields ∧ f.name = field := by
  unfold fieldAt?
  rw [Option.bind_eq_some_iff]
  constructor
  · rintro ⟨record,found,inside⟩
    obtain ⟨member,named⟩ := (find?_named settled.named.apart).mp found
    obtain ⟨listed,same⟩ := (find?_named (settled.named.fields record member)).mp inside
    obtain ⟨i,position⟩ := mem_iff_getElem?.mp member
    exact ⟨i,record,position,named,listed,same⟩
  · rintro ⟨i,record,position,named,listed,same⟩
    have member := mem_of_getElem? position
    exact ⟨record,(find?_named settled.named.apart).mpr ⟨member,named⟩,
      (find?_named (settled.named.fields record member)).mpr ⟨listed,same⟩⟩

theorem weak_iff (found : r.fieldAt? (owner,field) = some f) :
    f.annotation = none ∧ f.isWeak ↔ f.annotation = none ∧ r.Reports (owner,field) := by
  obtain ⟨i,record,position,named,listed,rfl⟩ := settled.fieldAt?_iff.mp found
  have place := settled.findIdx?_iff.mpr ⟨record,position,named⟩
  refine and_congr_right fun unpinned => ?_
  rw [Field.isWeak_of_unpinned unpinned,settled.demoted i record f position listed]
  constructor
  · rintro ⟨_,reported⟩
    exact ⟨i,place,reported⟩
  · rintro ⟨j,other,reported⟩
    cases place.symm.trans other
    exact ⟨unpinned,reported⟩

theorem owns_iff : r.Owns owner field target ↔ ∃ i j, r.records.findIdx? (·.name == owner) = some i ∧
      r.records.findIdx? (·.name == target) = some j ∧
      Leads (arcs r.records) i field j := by
  constructor
  · rintro ⟨f,found,owning,rfl,known⟩
    obtain ⟨i,record,position,named,listed,same⟩ := settled.fieldAt?_iff.mp found
    obtain ⟨other,member,called⟩ := any_eq_true.mp known
    obtain ⟨j,place⟩ := mem_iff_getElem?.mp member
    have reached := settled.findIdx?_iff.mpr ⟨other,place,by simpa using called⟩
    exact ⟨i,j,settled.findIdx?_iff.mpr ⟨record,position,named⟩,reached,
      leads_iff.mpr ⟨record,f,position,listed,Field.declared_isTraced.mpr owning,same,reached⟩⟩
  · rintro ⟨i,j,start,stop,leads⟩
    obtain ⟨record,f,position,listed,traced,same,reached⟩ := leads_iff.mp leads
    obtain ⟨first,found,named⟩ := settled.findIdx?_iff.mp start
    cases position.symm.trans found
    obtain ⟨other,place,called⟩ := settled.findIdx?_iff.mp reached
    obtain ⟨last,found',named'⟩ := settled.findIdx?_iff.mp stop
    cases place.symm.trans found'
    exact ⟨f,settled.fieldAt?_iff.mpr ⟨i,record,position,named,listed,same⟩,
      Field.declared_isTraced.mp traced,called.symm.trans named',
      any_eq_true.mpr ⟨other,mem_of_getElem? place,by simpa using named'⟩⟩

/-- Every cycle of owning fields holds one that the search reports. -/
theorem reports_cycle (cycle : IsCycle r.Owns steps) : ∃ step ∈ steps, r.Reports step := by
  obtain ⟨nonempty,u,walk⟩ := cycle
  have place {owner : String} {i : Nat} (found : r.records.findIdx? (·.name == owner) = some i) :
      (r.records.findIdx? (·.name == owner)).getD 0 = i := by rw [found]; rfl
  have leads (owner field target : String) (_ : (owner,field) ∈ steps)
      (owns : r.Owns owner field target) : Leads (arcs r.records)
        ((r.records.findIdx? (·.name == owner)).getD 0) field
        ((r.records.findIdx? (·.name == target)).getD 0) := by
    obtain ⟨i,j,start,stop,leads⟩ := settled.owns_iff.mp owns
    rw [place start,place stop]
    exact leads
  obtain ⟨_,listed,reported⟩ := (closing_spec r.records).1 _ ⟨by simpa using nonempty,_,walk.map _ leads⟩
  obtain ⟨step,member,rfl⟩ := mem_map.mp listed
  obtain ⟨target,owns⟩ := walk.owner member
  obtain ⟨i,_,start,_⟩ := settled.owns_iff.mp owns
  rw [place start] at reported
  exact ⟨step,member,i,start,reported⟩

/-- In a small registry every reported field lies on a cycle of owning fields. -/
theorem onCycle_of_reports (small : r.records.length ≤ pathLimit)
    (reports : r.Reports (owner,field)) : OnCycle r.Owns (owner,field) := by
  obtain ⟨i,start,reported⟩ := reports
  obtain ⟨steps,⟨nonempty,u,walk⟩,simple,member⟩ := (closing_spec r.records).2 small _ reported
  let called (i : Nat) : String := ((r.records[i]?).map Record.name).getD ""
  have name_at {i : Nat} (inside : i < r.records.length) : r.records.findIdx? (·.name == called i) = some i := by
    have found := getElem?_eq_getElem inside
    exact settled.findIdx?_iff.mpr ⟨_,found,by simp [called,found]⟩
  have owns (i : Nat) (field : String) (j : Nat) (_ : (i,field) ∈ steps)
      (leads : Leads (OwnershipGraph.arcs r.records) i field j) :
      r.Owns (called i) field (called j) := by
    obtain ⟨first,last⟩ := leads_inside leads
    exact settled.owns_iff.mpr ⟨i,j,name_at first,name_at last,leads⟩
  have inside (step : Nat × String) (listed : step ∈ steps) : step.1 < r.records.length :=
    (OwnershipGraph.leads_inside (walk.owner listed).choose_spec).1
  have here : called i = owner := by
    obtain ⟨record,found,named⟩ := settled.findIdx?_iff.mp start
    simp [called,found,named]
  refine ⟨_,⟨by simpa using nonempty,called u,walk.map called owns⟩,?_,?_⟩
  · -- Different positions have different names, so the records still differ.
    rw [map_map]
    have names := simple.map_on (f := called) fun i first j second same => by
      obtain ⟨_,listed,rfl⟩ := mem_map.mp first
      obtain ⟨_,listed',rfl⟩ := mem_map.mp second
      have left := name_at (inside _ listed)
      rw [same,name_at (inside _ listed')] at left
      exact (Option.some.inj left).symm
    rwa [map_map] at names
  · rw [← here]
    exact mem_map_of_mem member

theorem flagged_iff (small : r.records.length ≤ pathLimit) {step : String × String} :
    (∃ edge ∈ r.edges, (edge.owner,edge.field) = step ∧ edge.isBack) ↔
      ∃ f, r.fieldAt? step = some f ∧ f.annotation = none ∧ f.isWeak := by
  constructor
  · rintro ⟨edge,listed,rfl,back⟩
    obtain ⟨record,member,f,inside,_,rfl⟩ := (settled.edges edge).mp listed
    obtain ⟨i,position⟩ := mem_iff_getElem?.mp member
    have unpinned := ((settled.demoted i record f position inside).mp back).1
    exact ⟨f,settled.fieldAt?_iff.mpr ⟨i,record,position,rfl,inside,rfl⟩,unpinned,
      (Field.isWeak_of_unpinned unpinned).mpr back⟩
  · rintro ⟨f,found,unpinned,weak⟩
    obtain ⟨i,record,position,named,inside,same⟩ := settled.fieldAt?_iff.mp found
    -- The field lies on a cycle of owning fields, so it is one of them and has an edge.
    obtain ⟨steps,⟨_,_,walk⟩,_,member⟩ := settled.onCycle_of_reports small
      ((settled.weak_iff found).mp ⟨unpinned,weak⟩).2
    obtain ⟨_,g,found',owning,_⟩ := walk.owner member
    cases found.symm.trans found'
    exact ⟨_,(settled.edges _).mpr ⟨record,mem_of_getElem? position,f,inside,owning,rfl⟩,
      Prod.ext named same,(Field.isWeak_of_unpinned unpinned).mp weak⟩

/-- A cycle of owning fields is broken exactly if the search reports one of its fields that is not
annotated. -/
theorem broken_iff (cycle : IsCycle r.Owns steps) : (∃ step ∈ steps, ∃ f, r.fieldAt? step = some f ∧ f.isWeak) ↔
      ∃ step ∈ steps, r.Reports step ∧ ∃ f, r.fieldAt? step = some f ∧ f.annotation = none := by
  obtain ⟨_,u,walk⟩ := cycle
  refine exists_congr fun step => and_congr_right fun member => ?_
  obtain ⟨_,f,found,owning,_⟩ := walk.owner member
  simp only [found,Option.some.injEq,exists_eq_left']
  constructor
  · intro weak
    have unpinned : f.annotation = none := by
      obtain ⟨_,notWeak,notUntraced⟩ := owning
      cases written : f.annotation with
      | none => rfl
      | some s => cases s <;> simp_all [Field.isWeak,Field.strength]
    exact ⟨((settled.weak_iff found).mp ⟨unpinned,weak⟩).2,unpinned⟩
  · rintro ⟨reports,unpinned⟩
    exact ((settled.weak_iff found).mpr ⟨unpinned,reports⟩).2

/-- Traced fields form a cycle only with the help of one that is written to be strong. -/
theorem strong_on_cycle (cycle : IsCycle r.Traces steps) :
    ∃ step ∈ steps, ∃ f, r.fieldAt? step = some f ∧ f.annotation = some .strong := by
  obtain ⟨nonempty,u,walk⟩ := cycle
  have owned : Walk r.Owns u steps u := by
    refine walk.mono ?_
    rintro owner field target ⟨f,found,traced,refers⟩
    exact ⟨f,found,Field.owning_of_traced traced,refers⟩
  obtain ⟨step,member,reports⟩ := settled.reports_cycle ⟨nonempty,u,owned⟩
  obtain ⟨_,f,found,traced,_⟩ := walk.owner member
  refine ⟨step,member,f,found,?_⟩
  cases written : f.annotation with
  | none =>
    have weak := ((settled.weak_iff found).mpr ⟨written,reports⟩).2
    simp_all [Field.isWeak,Field.isTraced]
  | some s => cases s <;> simp_all [Field.isTraced,Field.strength]

end Settled

/-- Demotion is sound and not excessive: what is demoted lies on a cycle of owning fields and is
what the flagged edges show, and only fields written to be strong keep a cycle of traced fields
together. -/
theorem demotion_breaks_cycles (calls : List (String × List Field))
    (small : (registerAll {} calls).records.length ≤ 256) :
    (∀ step f, (registerAll {} calls).fieldAt? step = some f → f.annotation = none → f.isWeak →
      OnCycle (registerAll {} calls).Owns step) ∧
    (∀ step, (∃ edge ∈ (registerAll {} calls).edges,
        (edge.owner,edge.field) = step ∧ edge.isBack) ↔
      ∃ f, (registerAll {} calls).fieldAt? step = some f ∧ f.annotation = none ∧ f.isWeak) ∧
    (∀ steps, IsCycle (registerAll {} calls).Traces steps → ∃ step ∈ steps, ∃ f,
      (registerAll {} calls).fieldAt? step = some f ∧ f.annotation = some .strong) ∧
    ((∀ step f, (registerAll {} calls).fieldAt? step = some f → f.annotation ≠ some .strong) →
      ∀ steps, ¬ IsCycle (registerAll {} calls).Traces steps) := by
  have settled := registerAll_settled calls
  refine ⟨?_,fun step => settled.flagged_iff small,fun steps => settled.strong_on_cycle,?_⟩
  · intro step f found unpinned weak
    exact settled.onCycle_of_reports small ((settled.weak_iff found).mp ⟨unpinned,weak⟩).2
  · intro unwritten steps cycle
    obtain ⟨step,_,f,found,strong⟩ := settled.strong_on_cycle cycle
    exact unwritten step f found strong

/-- Two records that refer to each other; the second definition of the first one adds a field. -/
def familyCalls : List (String × List Field) :=
  [("Parent",[⟨"child","Child",none,false⟩]),
    ("Child",[⟨"parent","Parent",none,false⟩,⟨"sibling","Child",some .strong,false⟩]),
    ("Parent",[⟨"child","Child",none,false⟩,⟨"name","int",none,false⟩])]

/-- The field that closes the cycle of the two records is weak, and lies on a cycle. -/
theorem family_demotion :
    (registerAll {} familyCalls).records.length ≤ 256 ∧
      OnCycle (registerAll {} familyCalls).Owns ("Child","parent") :=
  ⟨by decide +kernel,(demotion_breaks_cycles familyCalls (by decide +kernel)).1 ("Child","parent")
    ⟨"parent","Parent",none,true⟩ (by decide +kernel) rfl rfl⟩

/-- The search reports a field of every cycle of owning fields, and the cycle is broken exactly if
one of the fields it reports there is not annotated. -/
theorem cycle_broken_iff (calls : List (String × List Field)) (steps : List (String × String))
    (cycle : IsCycle (registerAll {} calls).Owns steps) :
    (∃ step ∈ steps, (registerAll {} calls).Reports step) ∧
      ((∃ step ∈ steps, ∃ f, (registerAll {} calls).fieldAt? step = some f ∧ f.isWeak) ↔
        ∃ step ∈ steps, (registerAll {} calls).Reports step ∧
          ∃ f, (registerAll {} calls).fieldAt? step = some f ∧ f.annotation = none) :=
  ⟨(registerAll_settled calls).reports_cycle cycle,(registerAll_settled calls).broken_iff cycle⟩

theorem family_cycle :
    IsCycle (registerAll {} familyCalls).Owns [("Parent","child"),("Child","parent")] := by
  refine ⟨cons_ne_nil _ _,"Parent",.step ?_ (.step ?_ (.here "Parent"))⟩
  · exact ⟨⟨"child","Child",none,false⟩,by decide +kernel,⟨by decide,nofun,nofun⟩,rfl,
      by decide +kernel⟩
  · exact ⟨⟨"parent","Parent",none,true⟩,by decide +kernel,⟨by decide,nofun,nofun⟩,rfl,
      by decide +kernel⟩

/-- The cycle of the two records is broken, since the field reported on it is not annotated. -/
theorem family_broken :
    IsCycle (registerAll {} familyCalls).Owns [("Parent","child"),("Child","parent")] ∧
      ∃ step ∈ [("Parent","child"),("Child","parent")],
        ∃ f, (registerAll {} familyCalls).fieldAt? step = some f ∧ f.isWeak := by
  refine ⟨family_cycle,(cycle_broken_iff _ _ family_cycle).2.mpr ⟨("Child","parent"),?_,?_,?_⟩⟩
  · decide
  · exact ⟨1,by decide +kernel,by decide +kernel⟩
  · exact ⟨⟨"parent","Parent",none,true⟩,by decide +kernel,rfl⟩

/-- Two records that refer to each other, the second one through a field that is written to be
strong. -/
def pinnedCalls : List (String × List Field) :=
  [("A",[⟨"b","B",none,false⟩]),("B",[⟨"a","A",some .strong,false⟩])]

/-- The search reports the field that is written to be strong, and the other one stays strong too:
a cycle with an unannotated field is left unbroken. -/
theorem pinned_cycle_unbroken :
    IsCycle (registerAll {} pinnedCalls).Owns [("A","b"),("B","a")] ∧
      (∃ f, (registerAll {} pinnedCalls).fieldAt? ("A","b") = some f ∧ f.annotation = none) ∧
      ¬ ∃ step ∈ [("A","b"),("B","a")],
        ∃ f, (registerAll {} pinnedCalls).fieldAt? step = some f ∧ f.isWeak := by
  have first : (registerAll {} pinnedCalls).fieldAt? ("A","b") =
      some ⟨"b","B",none,false⟩ := by decide +kernel
  have second : (registerAll {} pinnedCalls).fieldAt? ("B","a") =
      some ⟨"a","A",some .strong,false⟩ := by decide +kernel
  refine ⟨⟨cons_ne_nil _ _,"A",.step ?_ (.step ?_ (.here "A"))⟩,⟨_,first,rfl⟩,?_⟩
  · exact ⟨_,first,⟨by decide,nofun,nofun⟩,rfl,by decide +kernel⟩
  · exact ⟨_,second,⟨by decide,nofun,nofun⟩,rfl,by decide +kernel⟩
  · rintro ⟨step,member,f,found,weak⟩
    rcases mem_cons.mp member with rfl | last
    · cases first.symm.trans found
      cases weak
    · cases mem_singleton.mp last
      cases second.symm.trans found
      cases weak

end Registry

end StagedLisp
