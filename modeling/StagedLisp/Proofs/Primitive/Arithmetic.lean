import StagedLisp.Proofs.Primitive.Staging

/-! Integer primitives are exact. What they give is the result over the integers, and they refuse
exactly where it, or a result on the way to it, is beyond 64 bits or a division makes no sense. -/
namespace StagedLisp.Primitive

open List Int64

def Fits (n : Int) : Prop := minValue.toInt ≤ n ∧ n ≤ maxValue.toInt

/-- The result over the integers. Division truncates toward zero. -/
def exactResult : Primitive → List Int → Int
  | add,args => args.foldl (· + ·) 0
  | sub,[a] => -a
  | sub,a :: rest => rest.foldl (· - ·) a
  | mul,args => args.foldl (· * ·) 1
  | div,[a,b] => a.tdiv b
  | mod,[a,b] => a.tmod b
  | _,_ => 0

/-- Some result of a fold from the left, the last one included, does not fit. -/
def Exceeds (f : Int → Int → Int) (start : Int) (args : List Int) : Prop :=
  ∃ front, front <+: args ∧ ¬ Fits (front.foldl f start)

/-- The remainder of the least integer by minus one would fit, but is refused like the quotient. -/
def Refused : Primitive → List Int → Prop
  | add,args => Exceeds (· + ·) 0 args
  | sub,[a] => ¬ Fits (-a)
  | sub,a :: rest => Exceeds (· - ·) a rest
  | mul,args => Exceeds (· * ·) 1 args
  | div,[a,b] => b = 0 ∨ ¬ Fits (a.tdiv b)
  | mod,[a,b] => b = 0 ∨ a = minValue.toInt ∧ b = -1
  | _,_ => False

/-- The outcome is an error if the operation is refused, and the exact result otherwise. -/
inductive Computes (refused : Prop) (n : Int) : Result Int64 → Prop where
  | ok {m} : ¬ refused → m.toInt = n → Computes refused n (.ok m)
  | error {e} : refused → Computes refused n (.error e)

variable {f : Int → Int → Int} {start : Int} {op : Primitive}

theorem fits_toInt (n : Int64) : Fits n.toInt := ⟨n.le_toInt,Int.le_of_lt_add_one n.toInt_lt⟩

theorem exceeds_nil : Exceeds f start [] ↔ ¬ Fits start := by simp [Exceeds]

theorem exceeds_cons (fits : Fits start) (n : Int) (rest : List Int) :
    Exceeds f start (n :: rest) ↔ Exceeds f (f start n) rest := by
  constructor
  · rintro ⟨front,within,beyond⟩
    rcases prefix_cons_iff.mp within with rfl | ⟨others,rfl,inside⟩
    · exact absurd fits beyond
    · exact ⟨others,inside,beyond⟩
  · rintro ⟨front,within,beyond⟩
    exact ⟨n :: front,(prefix_cons_inj n).mpr within,beyond⟩

theorem exactly_computes (operation : Overflow) (n : Int) : Computes (¬ Fits n) n (exactly operation n) := by
  cases found : exactly operation n with
  | ok m =>
    have exact := exactly_ok_iff.mp found
    exact .ok (not_not.mpr (exact ▸ fits_toInt m)) exact
  | error e =>
    refine .error fun fits => ?_
    rw [exactly_ok_iff.mpr (toInt_ofInt_of_le fits.1 (Int.lt_add_one_of_le fits.2))] at found
    cases found

/-- Each step of a fold refuses what does not fit; the others go on from the exact result. -/
theorem foldInts_computes (op : Primitive) (operation : Overflow) (f : Int → Int → Int)
    (acc : Int64) (args : List Int64) :
    Computes (Exceeds f acc.toInt (args.map toInt)) ((args.map toInt).foldl f acc.toInt)
      (foldInts op operation f acc (args.map .int)) := by
  induction args generalizing acc with
  | nil => exact .ok (exceeds_nil.not.mpr (not_not.mpr (fits_toInt acc))) rfl
  | cons n rest ih =>
    have taken : operand op (.int n) = .ok n := rfl
    simp only [map_cons,foldl_cons,exceeds_cons (fits_toInt acc),foldInts,taken]
    cases found : exactly operation (f acc.toInt n.toInt) with
    | ok m =>
      rw [← exactly_ok_iff.mp found]
      exact ih m
    | error e =>
      have step := exactly_computes operation (f acc.toInt n.toInt)
      rw [found] at step
      cases step with
      | error beyond => exact .error ⟨[], nil_prefix,beyond⟩

/-- A fold that starts from its first operand might as well start from a neutral one. -/
theorem foldFirst_computes (op : Primitive) (operation : Overflow) (fits : Fits start)
    (neutral : ∀ n, f start n = n) (a : Int64) (rest : List Int64) :
    Computes (Exceeds f start ((a :: rest).map toInt)) (((a :: rest).map toInt).foldl f start)
      (foldFirst op operation f ((a :: rest).map .int)) := by
  simp only [map_cons,foldl_cons,exceeds_cons fits,neutral]
  exact foldInts_computes op operation f a rest

theorem divide_computes (a b : Int64) : Computes (Refused div [a.toInt,b.toInt]) (a.toInt.tdiv b.toInt)
        (divide div Int.tdiv (.int a) (.int b)) ∧
      Computes (Refused mod [a.toInt,b.toInt]) (a.toInt.tmod b.toInt) (divide mod Int.tmod (.int a) (.int b)) := by
  have taken (op : Primitive) (n : Int64) : operand op (.int n) = .ok n := rfl
  have zero : b.toInt = 0 ↔ b = 0 := @Int64.toInt_inj b 0
  have minus : b.toInt = -1 ↔ b = -1 := @Int64.toInt_inj b (-1)
  simp only [divide,taken,Refused,zero,toInt_inj,minus]
  by_cases none : b = 0
  · rw [if_pos none,if_pos none]
    exact ⟨.error (.inl none),.error (.inl none)⟩
  by_cases wraps : a = minValue ∧ b = -1
  · rw [if_neg none,if_neg none,if_pos wraps,if_pos wraps]
    refine ⟨.error (.inr ?_),.error (.inr wraps)⟩
    rw [wraps.1,wraps.2,Fits]
    decide
  · rw [if_neg none,if_neg none,if_neg wraps,if_neg wraps]
    refine ⟨.ok ?_ (tdiv_toInt wraps),.ok (not_or.mpr ⟨none,wraps⟩) (tmod_toInt a b none)⟩
    rw [← tdiv_toInt wraps]
    exact not_or.mpr ⟨none,not_not.mpr (fits_toInt _)⟩

theorem reduce_computes (args : List Int64) (next : Nat)
    (arithmetic : op ∈ [add,sub,mul,div,mod]) (admitted : op.arity.admits args.length) :
    ∃ result, reduce op (args.map .int) next = result.map (fun n => (.int n,next)) ∧
      Computes (Refused op (args.map toInt)) (exactResult op (args.map toInt)) result := by
  simp only [mem_cons,not_mem_nil,or_false] at arithmetic
  rcases arithmetic with rfl | rfl | rfl | rfl | rfl
  · refine ⟨_,rfl,?_⟩
    cases args with
    | nil => exact .ok (exceeds_nil.not.mpr (not_not.mpr (fits_toInt 0))) rfl
    | cons a rest => exact foldFirst_computes add .addition (fits_toInt 0) Int.zero_add a rest
  · refine ⟨_,rfl,?_⟩
    rcases args with _ | ⟨a,_ | ⟨b,rest⟩⟩
    · cases admitted
    · exact exactly_computes .negation (-a.toInt)
    · exact foldInts_computes sub .subtraction (· - ·) a (b :: rest)
  · refine ⟨_,rfl,?_⟩
    cases args with
    | nil => cases admitted
    | cons a rest => exact foldFirst_computes mul .multiplication (fits_toInt 1) Int.one_mul a rest
  · obtain ⟨a,b,rfl⟩ := length_eq_two.mp (beq_iff_eq.mp admitted)
    exact ⟨_,rfl,(divide_computes a b).1⟩
  · obtain ⟨a,b,rfl⟩ := length_eq_two.mp (beq_iff_eq.mp admitted)
    exact ⟨_,rfl,(divide_computes a b).2⟩

theorem apply_numbers {args : List Int64} (next : Nat) (admitted : op.arity.admits args.length) :
    op.apply (args.map .int) next = op.reduce (args.map .int) next := by
  have plain : (args.map Value.int).any Value.isCode = false := by
    rw [any_map]
    exact any_eq_false.mpr fun _ _ => Bool.false_ne_true
  rw [apply,length_map,admitted,plain]
  rfl

/-- An integer primitive on as many integers as it admits gives the exact result and nothing else,
and an error exactly if the divisor is zero, a result on the way does not fit, or it is the
remainder of the least integer by minus one. -/
theorem apply_never_wraps (op : Primitive) (args : List Int64) (next : Nat)
    (arithmetic : op ∈ [add,sub,mul,div,mod]) (admitted : op.arity.admits args.length) :
    (∀ v next', op.apply (args.map .int) next = .ok (v,next') →
      next' = next ∧ ∃ n : Int64, v = .int n ∧ n.toInt = exactResult op (args.map Int64.toInt)) ∧
    ((∃ e, op.apply (args.map .int) next = .error e) ↔ Refused op (args.map Int64.toInt)) := by
  obtain ⟨result,reduced,computes⟩ := reduce_computes args next arithmetic admitted
  rw [apply_numbers next admitted,reduced]
  cases computes with
  | ok admits exact =>
    refine ⟨?_,iff_of_false (fun ⟨_,failed⟩ => by cases failed) admits⟩
    intro v next' same
    cases same
    exact ⟨rfl,_,rfl,exact⟩
  | error refused =>
    refine ⟨?_,iff_of_true ⟨_,rfl⟩ refused⟩
    intro v next' same
    cases same

/-- A sum is refused although it fits itself, because the one before does not. -/
theorem apply_never_wraps_between :
    let args : List Int64 := [Int64.maxValue,1,-1]
    add ∈ [add,sub,mul,div,mod] ∧ add.arity.admits args.length ∧
      Fits (exactResult add (args.map Int64.toInt)) ∧ Refused add (args.map Int64.toInt) ∧
      ∃ e, add.apply (args.map .int) 0 = .error e := by
  intro args
  have refused : Refused add (args.map Int64.toInt) :=
    ⟨[Int64.maxValue.toInt,1],⟨[-1],rfl⟩,by unfold Fits; decide⟩
  have fails := ((apply_never_wraps add args 0 (.head _) rfl).2).mpr refused
  exact ⟨.head _,rfl,by unfold Fits; decide,refused,fails⟩

end StagedLisp.Primitive
