/-! Searching in and editing texts by their characters. -/
namespace StagedLisp.Text

def occursIn (part text : List Char) : Bool :=
  match text with
  | [] => part.isEmpty
  | _ :: rest => part.isPrefixOf text || occursIn part rest

def contains (text part : String) : Bool := occursIn part.toList text.toList

def replaceChar (old : Char) (new : String) (text : String) : String :=
  String.ofList (text.toList.flatMap fun c => if c = old then new.toList else [c])

def after? (start text : String) : Option String :=
  if start.toList.isPrefixOf text.toList then
    some (String.ofList (text.toList.drop start.length))
  else none

end StagedLisp.Text
