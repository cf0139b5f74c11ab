import StagedLisp.Table

/-! Look-up in a table after a change. -/
namespace StagedLisp.Table

variable {α : Type}

theorem get?_cons (key : String) (v : α) (rest : Table α) (x : String) :
    get? ((key,v) :: rest) x = if x = key then some v else get? rest x := by
  by_cases same : x = key
  · simp [get?,same]
  · have other : (x == key) = false := beq_false_of_ne same
    simp [get?,List.lookup_cons,other,same]

theorem get?_set (t : Table α) (x y : String) (v : α) :
    (t.set x v).get? y = if y = x then some v else t.get? y := by
  induction t with
  | nil => exact get?_cons x v [] y
  | cons entry rest ih =>
    obtain ⟨key,old⟩ := entry
    by_cases here : key = x
    · rw [set,if_pos here,get?_cons,get?_cons,here]
      split <;> rfl
    · rw [set,if_neg here,get?_cons,get?_cons,ih]
      by_cases found : y = key
      · rw [if_pos found,if_pos found,if_neg (found ▸ here)]
      · rw [if_neg found,if_neg found]

end StagedLisp.Table
