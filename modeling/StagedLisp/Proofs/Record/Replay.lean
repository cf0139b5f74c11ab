import Mathlib.Data.List.Induction
import StagedLisp.Proofs.Record.Cycles

/-! A registry has no memory: it is that of the last accepted definition of each name, in the order in
which the names were first accepted. What earlier registrations demoted is worked out anew. -/
namespace StagedLisp.Registry

open List Record

def accepted (calls : List (String × List Field)) : List (String × List Field) :=
  calls.filter fun call => (duplicateField? call.2).isNone

def lastFields (calls : List (String × List Field)) (name : String) : List Field :=
  ((calls.filter (·.1 == name)).getLast?.map Prod.snd).getD []

/-- One call for each name that has been accepted, in the order in which they first were: the last one
accepted. -/
def finalCalls (calls : List (String × List Field)) : List (String × List Field) :=
  ((accepted calls).map Prod.fst).eraseDups.map fun name => (name,lastFields (accepted calls) name)

/-- The records that some calls define, each put over an earlier one of its name. -/
def putAll (records : List Record) (calls : List (String × List Field)) : List Record :=
  calls.foldl (fun records call => put records ⟨call.1,call.2⟩) records

variable {records records' : List Record} {calls : List (String × List Field)}

theorem register_ok_iff (r : Registry) (name : String) (fields : List Field) :
    (∃ next, r.register name fields = .ok next) ↔ duplicateField? fields = none := by
  unfold register
  cases duplicateField? fields <;> simp [fail]

theorem ofRecords_congr (same : records.map declared = records'.map declared) :
    ofRecords records = ofRecords records' := by
  unfold ofRecords
  rw [same]

theorem declared_put (records : List Record) (record : Record) : (put records record).map declared =
      put (records.map declared) record.declared := by
  have named (r : Record) : r.declared.name = r.name := rfl
  unfold put
  simp only [any_map,Function.comp_def,named]
  split
  · rw [map_map,map_map]
    refine map_congr_left fun r _ => ?_
    by_cases same : r.name = record.name <;> simp [same,named]
  · simp

theorem ofRecords_put (records : List Record) (record : Record) :
    ofRecords (put (ofRecords records).records record) = ofRecords (put records record) := by
  apply ofRecords_congr
  rw [declared_put,declared_put,ofRecords_declared]

theorem registerAll_eq (records : List Record) (calls : List (String × List Field)) :
    (ofRecords records).registerAll calls = ofRecords (putAll records (accepted calls)) := by
  induction calls generalizing records with
  | nil => rfl
  | cons call rest ih =>
    obtain ⟨name,fields⟩ := call
    rw [registerAll]
    cases distinct : duplicateField? fields with
    | some field => simpa [register,distinct,fail,accepted] using ih records
    | none =>
      simp only [register,distinct,ofRecords_put]
      rw [ih]
      simp [accepted,distinct,putAll]

theorem eraseDups_concat (names : List String) (name : String) : (names ++ [name]).eraseDups =
      if name ∈ names then names.eraseDups else names.eraseDups ++ [name] := by
  have single : [name].eraseDups = [name] := by simp [eraseDups_cons]
  rw [eraseDups_append]
  by_cases member : name ∈ names <;> simp [member,List.removeAll,single]

theorem nodup_eraseDups (names : List String) : names.eraseDups.Nodup := by
  induction names using List.reverseRecOn with
  | nil => simp
  | append_singleton names name ih =>
    rw [eraseDups_concat]
    split
    · exact ih
    · next new => exact concat_eq_append ▸ ih.concat (by simpa using new)

theorem lastFields_concat (call : String × List Field) (name : String) :
    lastFields (calls ++ [call]) name = if call.1 = name then call.2 else lastFields calls name := by
  by_cases same : call.1 = name <;> simp [lastFields,same]

theorem putAll_concat (call : String × List Field) :
    putAll records (calls ++ [call]) = put (putAll records calls) ⟨call.1,call.2⟩ := by
  simp [putAll]

theorem put_new {record : Record} (new : record.name ∉ records.map name) :
    put records record = records ++ [record] := if_neg (by simpa using new)

theorem put_known {record : Record} (known : record.name ∈ records.map name) :
    put records record = records.map fun r => if r.name == record.name then record else r :=
  if_pos (by simpa using known)

theorem putAll_eq (calls : List (String × List Field)) : putAll [] calls =
      (calls.map Prod.fst).eraseDups.map fun name => ⟨name,lastFields calls name⟩ := by
  induction calls using List.reverseRecOn with
  | nil => rfl
  | append_singleton calls call ih =>
    have names : (putAll [] calls).map name = (calls.map Prod.fst).eraseDups := by
      simp [ih,Function.comp_def]
    rw [putAll_concat,map_append,map_singleton,eraseDups_concat]
    by_cases known : call.1 ∈ calls.map Prod.fst
    · rw [put_known (names ▸ mem_eraseDups.mpr known),if_pos known,ih,map_map]
      refine map_congr_left fun name _ => ?_
      rw [lastFields_concat]
      by_cases same : name = call.1
      · simp [same]
      · simp [same,Ne.symm same]
    · rw [put_new (names ▸ known ∘ mem_eraseDups.mp),if_neg known,ih,map_append,
        map_singleton,lastFields_concat,if_pos rfl]
      congr 1
      refine map_congr_left fun name listed => ?_
      rw [lastFields_concat,if_neg]
      rintro rfl
      exact known (mem_eraseDups.mp listed)

theorem putAll_repeat (call : String × List Field) :
    putAll [] (calls ++ [call] ++ [call]) = putAll [] (calls ++ [call]) := by
  rw [putAll_eq,putAll_eq,map_append,map_singleton,eraseDups_concat,if_pos (by simp)]
  refine map_congr_left fun name _ => ?_
  rw [lastFields_concat,lastFields_concat]
  split <;> rfl

theorem putAll_distinct (distinct : (calls.map Prod.fst).Nodup) :
    putAll [] calls = calls.map fun call => ⟨call.1,call.2⟩ := by
  induction calls using List.reverseRecOn with
  | nil => rfl
  | append_singleton calls call ih =>
    rw [map_append,nodup_append] at distinct
    obtain ⟨before,_,apart⟩ := distinct
    rw [putAll_concat,ih before,put_new,map_append,map_singleton]
    intro known
    exact apart call.1 (by simpa using known) call.1 (by simp) rfl

theorem accepted_finalCalls (calls : List (String × List Field)) :
    accepted (finalCalls calls) = finalCalls calls := by
  refine filter_eq_self.mpr fun call member => ?_
  obtain ⟨name,_,rfl⟩ := mem_map.mp member
  rw [lastFields]
  cases last : ((accepted calls).filter (·.1 == name)).getLast? with
  | none => rfl
  | some found => exact (mem_filter.mp (mem_filter.mp (mem_of_getLast? last)).1).2

/-- Whatever has been registered and refused, the registry is what it would be if each name had been
registered once: when it first was, and as it last was. A call that is refused changes nothing, nor does
one that is repeated. -/
theorem registry_forgets (calls : List (String × List Field)) :
    (∀ (r : Registry) name fields,
      (∃ next, r.register name fields = .ok next) ↔ duplicateField? fields = none) ∧
    registerAll {} calls = registerAll {} (finalCalls calls) ∧
    (∀ call, duplicateField? call.2 ≠ none →
      registerAll {} (calls ++ [call]) = registerAll {} calls) ∧
    ∀ call, registerAll {} (calls ++ [call,call]) = registerAll {} (calls ++ [call]) := by
  have run (calls : List (String × List Field)) :
      registerAll {} calls = ofRecords (putAll [] (accepted calls)) := registerAll_eq [] calls
  refine ⟨register_ok_iff,?_,?_,?_⟩
  · rw [run,run,accepted_finalCalls,putAll_eq,putAll_distinct]
    · simp [finalCalls,Function.comp_def]
    · simpa [finalCalls,Function.comp_def] using nodup_eraseDups _
  · intro call refused
    rw [run,run]
    simp [accepted,refused]
  · intro call
    rw [run,run]
    cases found : duplicateField? call.2 with
    | none => simpa [accepted,found] using congrArg ofRecords (putAll_repeat call)
    | some field => simp [accepted,found]

/-- Two records that own each other, until the first is defined anew. The last definition is refused,
because it names a field twice. -/
def revisedCalls : List (String × List Field) :=
  [("node",[{ name := "next",typeName := "link" }]),("link",[{ name := "back",typeName := "node" }]),
    ("node",[{ name := "value",typeName := "int" }]),
    ("link",[{ name := "x",typeName := "int" },{ name := "x",typeName := "int" }])]

theorem revisedCalls_forgotten :
    duplicateField? [{ name := "x",typeName := "int" },{ name := "x",typeName := "int" }] ≠ none ∧
    registerAll {} revisedCalls = registerAll {} (revisedCalls.take 3) ∧
    registerAll {} revisedCalls =
      registerAll {} [("node",[{ name := "value",typeName := "int" }]),
        ("link",[{ name := "back",typeName := "node" }])] := by
  have refused : duplicateField?
      [{ name := "x",typeName := "int" },{ name := "x",typeName := "int" }] ≠ none := by decide
  have final : finalCalls revisedCalls = [("node",[{ name := "value",typeName := "int" }]),
      ("link",[{ name := "back",typeName := "node" }])] := by decide
  obtain ⟨_,_,refuses,_⟩ := registry_forgets (revisedCalls.take 3)
  exact ⟨refused,refuses _ refused,final ▸ (registry_forgets revisedCalls).2.1⟩

end StagedLisp.Registry
