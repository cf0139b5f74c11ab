/-! Integers of 64 bits. -/
namespace StagedLisp.Word

def fits (n : Int) : Bool := -9223372036854775808 ≤ n && n ≤ 9223372036854775807

def ofInt? (n : Int) : Option Int64 := if fits n then some (.ofInt n) else none

theorem ofInt?_iff {n : Int} {value : Int64} : ofInt? n = some value ↔ value.toInt = n := by
  have range := And.intro value.le_toInt value.toInt_lt
  constructor
  · intro found
    unfold ofInt? at found
    split at found
    · next inside =>
      rw [fits,Bool.and_eq_true,decide_eq_true_eq,decide_eq_true_eq] at inside
      rw [← Option.some.inj found]
      exact Int64.toInt_ofInt_of_le (by omega) (by omega)
    · cases found
  · rintro rfl
    have inside : fits value.toInt = true := by
      rw [fits,Bool.and_eq_true,decide_eq_true_eq,decide_eq_true_eq]
      omega
    rw [ofInt?,if_pos inside,Int64.ofInt_toInt]

end StagedLisp.Word
