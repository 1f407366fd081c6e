/-!
# Integers in decimal

Integers are written with the fewest digits and a minus sign below zero.  Readers also take leading
zeros, and one sign in front where the number may have one.

Results:
1. what is written is a non-empty run of digits with the value that was written
   (`Decimal.digits_ne_nil`, `Decimal.all_isDigit_digits`, `Decimal.value_digits`);
2. hence it reads back, for natural numbers and for integers, those of 64 bits among them
   (`Decimal.nat?_digits`, `Decimal.int?_signed`, `Decimal.int64?_ofInt64`);
3. 64 bits hold what a run of digits stands for unless that is above the largest of their integers
   (`Decimal.int64?_of_digits`).
-/

namespace TreeWalk.Decimal

/-! ## Writing -/

/-- The character of a digit below ten. -/
def digit (d : Nat) : Char :=
  Char.ofNat ('0'.toNat + d)

/-- The digits of a natural number, the most significant one first. -/
def digits (n : Nat) : List Char :=
  if n < 10 then [digit n] else digits (n / 10) ++ [digit (n % 10)]
termination_by n
decreasing_by omega

/-- The digits of an integer, after a minus sign if it is negative. -/
def signed : Int → List Char
  | .ofNat n => digits n
  | .negSucc n => '-' :: digits (n + 1)

/-- A natural number as text. -/
def ofNat (n : Nat) : String :=
  String.ofList (digits n)

/-- A 64-bit integer as text. -/
def ofInt64 (n : Int64) : String :=
  String.ofList (signed n.toInt)

/-! ## Reading -/

/-- What a digit counts. -/
def digitValue (c : Char) : Nat :=
  c.toNat - '0'.toNat

/-- The number that a run of digits stands for. -/
def value (cs : List Char) : Nat :=
  cs.foldl (fun n c => 10 * n + digitValue c) 0

/-- The number written by a text, if it is a non-empty run of digits. -/
def nat? (cs : List Char) : Option Nat :=
  if cs ≠ [] ∧ cs.all Char.isDigit then some (value cs) else none

/-- The integer written by a text: a run of digits with at most one sign before it. -/
def int? : List Char → Option Int
  | '-' :: cs => (nat? cs).map fun n : Nat => -(n : Int)
  | '+' :: cs => (nat? cs).map Int.ofNat
  | cs => (nat? cs).map Int.ofNat

/-- The 64-bit integer written by a text; none if the text writes no integer or one out of range. -/
def int64? (text : String) : Option Int64 :=
  match int? text.toList with
  | some n =>
    if Int64.minValue.toInt ≤ n ∧ n ≤ Int64.maxValue.toInt then some (Int64.ofInt n) else none
  | none => none

/-- The unsigned 32-bit number written by a text: digits, after a plus sign or none. -/
def uint32? (text : String) : Option UInt32 :=
  let unsigned := match text.toList with
    | '+' :: cs => cs
    | cs => cs
  match nat? unsigned with
  | some n => if n < UInt32.size then some (UInt32.ofNat n) else none
  | none => none

/-! ## What is written reads back -/

theorem digit_facts : ∀ d : Fin 10, (digit d).isDigit = true ∧ digitValue (digit d) = d := by
  decide

theorem isDigit_digit {d : Nat} (small : d < 10) : (digit d).isDigit = true :=
  (digit_facts ⟨d, small⟩).1

theorem digitValue_digit {d : Nat} (small : d < 10) : digitValue (digit d) = d :=
  (digit_facts ⟨d, small⟩).2

theorem digits_ne_nil (n : Nat) : digits n ≠ [] := by
  rw [digits]
  split <;> simp

theorem all_isDigit_digits (n : Nat) : (digits n).all Char.isDigit = true := by
  fun_induction digits n with
  | case1 n small => simp [isDigit_digit small]
  | case2 n _ ih => simp [ih, isDigit_digit (Nat.mod_lt n (by omega : 10 > 0))]

theorem value_append_digit (cs : List Char) (c : Char) :
    value (cs ++ [c]) = 10 * value cs + digitValue c := by
  simp [value]

theorem value_digits (n : Nat) : value (digits n) = n := by
  fun_induction digits n with
  | case1 n small => simp [value, digitValue_digit small]
  | case2 n _ ih =>
    rw [value_append_digit, ih, digitValue_digit (Nat.mod_lt n (by omega))]
    omega

theorem nat?_digits (n : Nat) : nat? (digits n) = some n := by
  rw [nat?, if_pos ⟨digits_ne_nil n, all_isDigit_digits n⟩, value_digits]

/-- A run of digits carries no sign, so it is read as it stands. -/
theorem int?_of_digits {cs : List Char} (run : cs.all Char.isDigit = true) :
    int? cs = (nat? cs).map Int.ofNat := by
  unfold int?
  split
  · simp [Char.isDigit] at run
  · simp [Char.isDigit] at run
  · rfl

theorem int?_signed (n : Int) : int? (signed n) = some n := by
  cases n with
  | ofNat n => simp [signed, int?_of_digits (all_isDigit_digits n), nat?_digits]
  | negSucc n => simp [signed, int?, nat?_digits, Int.negSucc_eq]

theorem int64?_ofInt64 (n : Int64) : int64? (ofInt64 n) = some n := by
  have written : int? (ofInt64 n).toList = some n.toInt := by
    rw [ofInt64, String.toList_ofList, int?_signed]
  rw [int64?, written]
  show (if _ then some (Int64.ofInt n.toInt) else none) = some n
  rw [if_pos ⟨Int64.minValue_le_toInt n, Int64.toInt_le n⟩, Int64.ofInt_toInt]

/-- A run of digits is read unless what it stands for is out of range. -/
theorem int64?_of_digits {text : String} (some : text ≠ "")
    (run : text.toList.all Char.isDigit = true) :
    int64? text =
      if (value text.toList : Int) ≤ Int64.maxValue.toInt then
        .some (Int64.ofInt (value text.toList))
      else none := by
  have written : int? text.toList = .some (value text.toList : Int) := by
    rw [int?_of_digits run, nat?,
      if_pos ⟨fun empty => some (String.toList_eq_nil_iff.mp empty), run⟩]
    rfl
  have negative : Int64.minValue.toInt ≤ 0 := by decide
  have above := Int.le_trans negative (Int.natCast_nonneg (value text.toList))
  rw [int64?, written]
  simp only [above, true_and]

theorem int64?_ofNat {n : Nat} (small : (n : Int) ≤ Int64.maxValue.toInt) :
    int64? (ofNat n) = some (Int64.ofInt n) := by
  have run : (ofNat n).toList = digits n := by rw [ofNat, String.toList_ofList]
  have written : ofNat n ≠ "" := by
    rw [Ne, ← String.toList_eq_nil_iff, run]
    exact digits_ne_nil n
  rw [int64?_of_digits written (by rw [run, all_isDigit_digits]), run, value_digits, if_pos small]

/-- What a run of digits stands for is not negative. -/
theorem toInt_nonneg_of_int64? {text : String} {n : Int64}
    (run : text.toList.all Char.isDigit = true) (reads : int64? text = some n) : 0 ≤ n.toInt := by
  unfold int64? at reads
  rw [int?_of_digits run] at reads
  cases found : nat? text.toList with
  | none => simp [found] at reads
  | some m =>
    simp only [found, Option.map_some] at reads
    split at reads
    · next range =>
      cases reads
      rw [Int64.toInt_ofInt_of_le range.1 (Int.lt_of_le_of_lt range.2 (by decide))]
      exact Int.natCast_nonneg m
    · cases reads

/-- Without a minus sign there are only digits. -/
theorem exists_digits_of_nonneg {n : Int64} (nonneg : 0 ≤ n.toInt) :
    ∃ k, ofInt64 n = String.ofList (digits k) := by
  obtain ⟨k, same⟩ := Int.eq_ofNat_of_zero_le nonneg
  refine ⟨k, ?_⟩
  rw [ofInt64, same]
  rfl

end TreeWalk.Decimal
