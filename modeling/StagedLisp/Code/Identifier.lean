/-! Identifiers of the generated program. A source name is spelled out in letters, digits and
underscores, and kept apart from the words that the generated program reserves. -/
namespace StagedLisp.Code

def resultName : String := "_res"

def keywords : List String := [
  "auto","break","case","char","const","continue","default","do","double","else","enum",
  "extern","float","for","goto","if","inline","int","long","register","restrict",
  "return","short","signed","sizeof","static","struct","switch","typedef","union",
  "unsigned","void","volatile","while"]

def supportNames : List String := [
  "Obj","Dest","WeakRef","mk_int","mk_pair","mk_int_stack","init_int","init_pair",
  "is_stack_obj","defer_free","free_tree","inc_ref","dec_ref","free_unique",
  "flush_freelist","mk_weak_ref","deref_weak","invalidate_weak","cleanup_weak_refs",
  "try_reuse","reuse_as_int","reuse_as_pair","freeze_cyclic","inc_scc_ref","release_scc",
  "tarjan","deferred_release","safe_point","flush_deferred","write_int","write_pair",
  "map_dps","fold_dps","int_of","is_true","add","sub","mul","div_op","mod_op","lt_op",
  "gt_op","le_op","ge_op","num_eq","not_op","is_nil","is_pair","eq_op","car","cdr",
  "scan_mark","scan_obj","print_obj","main","result"]

def spelling (c : Char) : String :=
  if c.isAlphanum || c == '_' then c.toString
  else match c with
    | '?' => "_p"
    | '!' => "_b"
    | '*' => "_star"
    | '+' => "_plus"
    | '<' => "_lt"
    | '>' => "_gt"
    | '=' => "_eq"
    | '/' => "_slash"
    | '%' => "_pct"
    | '.' => "_dot"
    | _ => "_"

def spelled (name : String) : String := String.join (name.toList.map spelling)

def startsWithDigit (word : String) : Bool := word.toList.head?.any Char.isDigit

def isReserved (word : String) : Bool :=
  word.isEmpty || startsWithDigit word || word == resultName || keywords.contains word || supportNames.contains word

def identifier (name : String) : String :=
  if isReserved (spelled name) then "v_" ++ spelled name else spelled name

end StagedLisp.Code
