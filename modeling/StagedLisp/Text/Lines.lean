/-! Texts of whole lines. -/
namespace StagedLisp.Text

/-- Each line is ended, the last one too. -/
def lines (ls : List String) : String := String.join (ls.map (· ++ "\n"))

end StagedLisp.Text
