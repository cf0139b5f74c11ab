import StagedLisp.Program
import StagedLisp.Proofs.Code.Scope
import StagedLisp.Proofs.Form.Let
import StagedLisp.Proofs.Record.Cycles
import StagedLisp.Proofs.Release.Declared
import StagedLisp.Reader.Read

/-! Identifiers of the generated program that coincide: those of two names, and those of a name and of
something that the program declares itself. -/
namespace StagedLisp

open List String Support Registry

theorem Plans.ofForm_ident {form : LetForm} {values : List Value} {a : Analysis} {options : Options} :
    ∀ p ∈ ofForm form values a options, p.ident = Code.identifier p.name := by
  refine ofForm_all (fun _ _ _ => rfl) (fun pair _ init p same _ => ?_) fun _ _ _ _ same => same
  unfold handOver
  split
  · exact same
  · split <;> exact same

namespace Support

/-- The structures that the support text defines before the record types, each also under a type name. -/
def typeNames : List String :=
  ["Obj","FreeNode","WeakRef","WeakNode","SccGroup","TarjanNode","DeferredEntry","Dest"]

/-- The line is the first or last one of the definition of a type, by its first bytes. -/
def definesType (line : String) : Bool :=
  ["typedef ","struct ","\x7d "].any fun start =>
    start.toByteArray.data.toList.isPrefixOf line.toByteArray.data.toList

end Support

namespace Code

variable {a b name word : String}

theorem spelled_chars {name : String} : (spelled name).toList.all isWordChar := by
  have each (c : Char) : (spelling c).toList.all isWordChar := by
    unfold spelling
    split
    · next plain => simpa [Char.toString,isWordChar] using plain
    · split <;> decide
  rw [spelled,toList_join,all_flatMap,all_map]
  exact all_eq_true.mpr fun c _ => each c

theorem identifier_isVariable (name : String) : IsVariable (identifier name) := by
  have words : ∀ word ∈ "Obj" :: keywords, ¬ ['v','_'] <+: word.toList := by decide
  unfold identifier
  split
  · have other : "v_" ++ spelled name ∉ "Obj" :: keywords := fun member =>
      words _ member (by simp)
    refine ⟨?_,?_,?_,not_mem_of_not_mem_cons other,ne_of_not_mem_cons other⟩
    · intro same
      have lists := congrArg toList same
      simp at lists
    · rw [toList_append,all_append,spelled_chars]
      decide
    · simp [startsWithDigit]
  · next free =>
    simp only [isReserved,Bool.or_eq_true,not_or,Bool.not_eq_true] at free
    refine ⟨?_,spelled_chars,free.1.1.1.2,?_,?_⟩
    · simpa using free.1.1.1.1
    · simpa using free.1.2
    · intro same
      rw [same] at free
      exact absurd free.2 (by decide)

theorem IsVariable.flag {word : String} (good : IsVariable word) : IsVariable (flagName word) := by
  have words : ∀ word ∈ "Obj" :: keywords, ¬ "_freed".toList <:+ word.toList := by decide
  have other : flagName word ∉ "Obj" :: keywords := fun member =>
    words _ member (by simp [flagName])
  refine ⟨?_,?_,?_,not_mem_of_not_mem_cons other,ne_of_not_mem_cons other⟩
  · intro same
    have lists := congrArg toList same
    simp [flagName] at lists
  · rw [flagName,toList_append,all_append,good.chars]
    decide
  · have start := good.start
    rw [startsWithDigit] at start ⊢
    rw [flagName,toList_append]
    cases chars : word.toList with
    | nil => exact absurd (toList_eq_nil_iff.mp chars) good.nonempty
    | cons c rest => rwa [chars] at start

theorem toList_spelled (name : String) :
    (spelled name).toList = name.toList.flatMap fun c => (spelling c).toList := by
  rw [spelled,toList_join,flatMap_map]

theorem spelling_plain {c : Char} (plain : isWordChar c = true) : spelling c = c.toString :=
  if_pos plain

theorem spelled_word (chars : word.toList.all isWordChar) : spelled word = word := by
  apply toList_inj.mp
  rw [toList_spelled]
  refine (flatMap_congr fun c member => ?_).trans (flatMap_singleton' _)
  simp [spelling_plain (all_eq_true.mp chars c member),Char.toString]

theorem isReserved_iff : isReserved word = true ↔
    word = "" ∨ startsWithDigit word = true ∨ word ∈ resultName :: (keywords ++ supportNames) := by
  simp [isReserved,or_assoc]

theorem isReserved_append {front : String} {c : Char} (first : front.toList.head? = some c)
    (letter : c.isDigit = false) : isReserved (front ++ word) = true ↔
      front ++ word ∈ resultName :: (keywords ++ supportNames) := by
  have start : (front ++ word).toList.head? = some c := by simp [first]
  rw [isReserved_iff,or_iff_right,or_iff_right]
  · simp [startsWithDigit,first,letter]
  · intro none
    simp [none] at start

theorem isReserved_prefixed (word : String) : isReserved ("v_" ++ word) = false := by
  have words : ∀ word ∈ resultName :: (keywords ++ supportNames), ¬ "v_".toList <+: word.toList := by decide
  rw [← Bool.not_eq_true,isReserved_append rfl rfl]
  exact fun listed => words _ listed (by simp)

theorem isReserved_scan (word : String) :
    isReserved ("scan_" ++ word) = true ↔ "scan_" ++ word ∈ supportNames := by
  have words : ∀ word ∈ resultName :: keywords, ¬ "scan_".toList <+: word.toList := by decide
  rw [isReserved_append rfl rfl,← cons_append,mem_append,or_iff_right]
  exact fun listed => words _ listed (by simp)

theorem identifier_unreserved (name : String) : isReserved (identifier name) = false := by
  unfold identifier
  split
  · exact isReserved_prefixed _
  · next free => exact Bool.not_eq_true _ ▸ free

/-- The first name is spelled like a reserved word, and the second one like the identifier it gets. -/
def SetApart (a b : String) : Prop := isReserved (spelled a) = true ∧ spelled b = "v_" ++ spelled a

/-- The names are spelled the same, or one of them like the other when that is set apart. -/
def Alike (a b : String) : Prop := spelled a = spelled b ∨ SetApart a b ∨ SetApart b a

theorem identifier_eq_iff : identifier a = identifier b ↔ Alike a b := by
  have free := isReserved_prefixed (spelled a)
  have other := isReserved_prefixed (spelled b)
  unfold identifier Alike SetApart
  split <;> split <;> grind [String.append_right_inj]

theorem nodup_identifiers_iff {names : List String} (distinct : names.Nodup) :
    (names.map identifier).Nodup ↔ ∀ a ∈ names, ∀ b ∈ names, Alike a b → a = b := by
  simp only [nodup_map_iff_inj_on distinct,identifier_eq_iff]

/-- Two names get the same identifier exactly if they are alike; so the bindings of a form, the registered records
and the fields of one get distinct identifiers unless two of their names are alike. -/
theorem identifiers_coincide_iff (a b : String) (kind : LetKind) (parts : List Value)
    (calls : List (String × List Field)) : (identifier a = identifier b ↔ Alike a b) ∧
    (∀ form, LetForm.ofParts kind parts = .ok form → ((form.names.map identifier).Nodup ↔
      ∀ a ∈ form.names, ∀ b ∈ form.names, Alike a b → a = b)) ∧
    let names := (registerAll {} calls).records.map Record.name
    ((names.map identifier).Nodup ↔ ∀ a ∈ names, ∀ b ∈ names, Alike a b → a = b) ∧
      ∀ r ∈ (registerAll {} calls).records, let fields := r.fields.map Field.name
        ((fields.map identifier).Nodup ↔ ∀ a ∈ fields, ∀ b ∈ fields, Alike a b → a = b) := by
  have named := (registerAll_settled calls).named
  exact ⟨identifier_eq_iff,fun form read => nodup_identifiers_iff (LetForm.ofParts_ok read).1,
    nodup_identifiers_iff named.apart,fun r member => nodup_identifiers_iff (named.fields r member)⟩

/-- Names that the reader accepts: a hyphen is spelled as an underscore, other marks as letters after one, and a
reserved word is set apart like a name. -/
theorem identifiers_coincide : [("a-b","a_b"),("a?","a-p"),("?ct","%"),("int","v_int")].all fun pair =>
    Reader.read pair.1 = .ok (.sym pair.1) ∧ Reader.read pair.2 = .ok (.sym pair.2) ∧ pair.1 ≠ pair.2 ∧
      identifier pair.1 = identifier pair.2 := by
  decide +kernel

theorem identifier_word (chars : word.toList.all isWordChar) (free : isReserved word = false) :
    identifier word = word := by
  rw [identifier,spelled_word chars,free]
  rfl

theorem identifier_eq_word (chars : word.toList.all isWordChar) :
    identifier name = word ↔ isReserved word = false ∧ Alike name word := by
  rw [← identifier_eq_iff]
  constructor
  · rintro rfl
    exact ⟨identifier_unreserved name,(identifier_word chars (identifier_unreserved name)).symm⟩
  · rintro ⟨free,same⟩
    rw [same,identifier_word chars free]

theorem eq_of_spelled (chars : word.toList.all Char.isAlphanum) (same : spelled name = word) : name = word := by
  rw [← same]
  refine (spelled_word (all_eq_true.mpr fun c member => ?_)).symm
  by_contra other
  have marked : '_' ∈ (spelling c).toList := by
    unfold spelling
    rw [isWordChar] at other
    rw [if_neg other]
    split <;> decide
  have inside : '_' ∈ word.toList := by
    rw [← same,toList_spelled]
    exact mem_flatMap.mpr ⟨c,member,marked⟩
  exact absurd (all_eq_true.mp chars '_' inside) (by decide)

theorem identifier_eq_letters (chars : word.toList.all Char.isAlphanum) :
    identifier name = word ↔ isReserved word = false ∧ name = word := by
  constructor
  · intro same
    refine ⟨same ▸ identifier_unreserved name,eq_of_spelled chars ?_⟩
    rw [identifier] at same
    split at same
    · rw [← same] at chars
      simp at chars
    · exact same
  · rintro ⟨free,rfl⟩
    refine identifier_word (all_eq_true.mpr fun c member => ?_) free
    rw [isWordChar,all_eq_true.mp chars c member]
    rfl

theorem flagName_unreserved (good : IsVariable word) : isReserved (flagName word) = false := by
  have words : ∀ word ∈ resultName :: (keywords ++ supportNames), ¬ "_freed".toList <:+ word.toList := by
    decide
  rw [← Bool.not_eq_true,isReserved_iff]
  rintro (none | digit | listed)
  · exact good.flag.nonempty none
  · exact absurd digit (Bool.eq_false_iff.mp good.flag.start)
  · exact words _ listed (by simp [flagName])

/-- A variable is never taken for the result, but it is for the null value, for a flag or for a scan if its name is
alike; a field is taken for the mark of its record, and a record for a type of the support text, if their names are
the same and not reserved. -/
theorem generated_names_coincide_iff (form : LetForm) (values : List Value) (a : Analysis) (options : Options)
    (registry : Registry) :
    (let plans := Plans.ofForm form values a options
      ∀ p ∈ plans, p.ident ≠ resultName ∧ (p.ident = null.render ↔ p.name = "NULL") ∧
        (∀ q ∈ plans, p.ident = flagName q.ident ↔ Alike p.name (flagName q.ident)) ∧
        ∀ r ∈ registry.records, let scan := "scan_" ++ identifier r.name
          (p.ident = scan ↔ scan ∉ supportNames ∧ Alike p.name scan)) ∧
    (∀ r ∈ registry.records, (∀ f ∈ r.fields, identifier f.name = "mark" ↔ f.name = "mark") ∧
      (identifier r.name ∈ typeNames ↔
        r.name ∈ ["FreeNode","WeakNode","SccGroup","TarjanNode","DeferredEntry"])) ∧
    sections.filter definesType = typeNames.flatMap fun name =>
      ["typedef struct " ++ name ++ " \x7b","\x7d " ++ name ++ ";"] := by
  refine ⟨fun p member => ?_,fun r _ => ⟨fun f _ => ?_,?_⟩,?_⟩
  · rw [Plans.ofForm_ident p member]
    refine ⟨identifier_ne_result _,?_,fun q listed => ?_,fun r _ => ?_⟩
    · exact (identifier_eq_letters (by decide)).trans (and_iff_right (by decide))
    · have good : IsVariable q.ident := Plans.ofForm_ident q listed ▸ identifier_isVariable q.name
      exact (identifier_eq_word good.flag.chars).trans (and_iff_right (flagName_unreserved good))
    · dsimp only
      rw [identifier_eq_word,← Bool.not_eq_true,isReserved_scan]
      rw [toList_append,all_append,(identifier_isVariable r.name).chars]
      decide
  · exact (identifier_eq_letters (by decide)).trans (and_iff_right (by decide))
  · have free : ["FreeNode","WeakNode","SccGroup","TarjanNode","DeferredEntry"] =
        typeNames.filter (!isReserved ·) := by decide
    have letters : typeNames.all (·.toList.all Char.isAlphanum) := by decide
    have same {word : String} (listed : word ∈ typeNames) :=
      @identifier_eq_letters r.name word (all_eq_true.mp letters word listed)
    rw [free,mem_filter,Bool.not_eq_true']
    constructor
    · intro listed
      obtain ⟨free,own⟩ := (same listed).mp rfl
      rw [own]
      exact ⟨listed,free⟩
    · rintro ⟨listed,free⟩
      rwa [(same listed).mpr ⟨free,rfl⟩]
  · decide +kernel

/-- Names that are taken for what the program declares itself. -/
theorem generated_names_coincide :
    (registerAll {} [("FreeNode",[⟨"mark","int",none,false⟩])]).records.map Record.name = ["FreeNode"] ∧
    identifier "FreeNode" ∈ typeNames ∧ identifier "mark" = "mark" ∧
    identifier "NULL" = null.render ∧ identifier "x_freed" = flagName (identifier "x") ∧
    identifier "scan_Node" = "scan_" ++ identifier "Node" := by
  decide +kernel

end Code

end StagedLisp
