import TreeWalk.Eval

/-!
# Exact arithmetic

The evaluator cuts the result of every operator on integers down to 64 bits.  Negatives, sums,
differences and products may as well be taken over all integers and cut down once, at the end.  Only
a quotient depends on what its operands are cut down to, and so does the test whether its divisor is
zero.

Results:
1. one operator: of words it makes the word of the exact result, or finds a divisor zero that the
   reference finds zero (`Arith.prefixOp_ofInt`, `Operation.intOp_ofInt`);
2. so, by induction on the tree, evaluation comes to the word of the reference
   (`Arith.expr_eq_reduced`), and it fails exactly if there is none (`eval_arithmetic`).
-/

namespace TreeWalk

/-! ## The reference -/

/-- The signed 64-bit word that an integer is cut down to: the only number from `-2 ^ 63` to
`2 ^ 63 - 1` that differs from it by a multiple of `2 ^ 64`. -/
def wrap (n : Int) : Int :=
  n.bmod Int64.size

/-- What can be done with two integers. -/
inductive Operation where
  | sum
  | difference
  | product
  | quotient
deriving DecidableEq, Repr

/-- The operator that a program writes for it. -/
def Operation.operator : Operation → Operator
  | sum => .plus
  | difference => .minus
  | product => .asterisk
  | quotient => .slash

/-- The result over all integers.  A quotient is that of words, cut off toward zero, and there is
none if the divisor is the word zero. -/
def Operation.reference : Operation → Int → Int → Option Int
  | sum, m, n => some (m + n)
  | difference, m, n => some (m - n)
  | product, m, n => some (m * n)
  | quotient, m, n => if wrap n = 0 then none else some ((wrap m).tdiv (wrap n))

/-- Arithmetic on integer literals. -/
inductive Arith where
  | literal (n : Int64)
  | negative (right : Arith)
  | binary (left : Arith) (operation : Operation) (right : Arith)
deriving DecidableEq, Repr

namespace Arith

/-- The expression that a program writes for it. -/
def expr : Arith → Expr
  | literal n => .int n
  | negative right => .prefixOp .minus right.expr
  | binary left operation right => .infixOp left.expr operation.operator right.expr

/-- The value over all integers, or none if some divisor is the word zero. -/
def reference : Arith → Option Int
  | literal n => some n.toInt
  | negative right => right.reference.map (- ·)
  | binary left operation right => do
    let m ← left.reference
    let n ← right.reference
    operation.reference m n

/-- What evaluation makes of a reference. -/
def reduced : Option Int → Except EvalError Value
  | none => .error .divisionByZero
  | some n => .ok (.int (Int64.ofInt n))

end Arith

/-- A divisor that overflows to zero is zero. -/
example : (Arith.binary (.literal 1) .quotient
    (.binary (.literal 4294967296) .product (.literal 4294967296))).reference = none := by
  decide

/-! ## One operator -/

theorem toInt_ofInt_eq_wrap (n : Int) : (Int64.ofInt n).toInt = wrap n :=
  Int64.toInt_ofInt

/-- The zero test looks at the word of the divisor. -/
theorem ofInt_eq_zero_iff (n : Int) : Int64.ofInt n = 0 ↔ wrap n = 0 := by
  rw [← Int64.toInt_inj, toInt_ofInt_eq_wrap, Int64.toInt_zero]

/-- The smallest word divided by minus one is off by a multiple of `2 ^ 64`, like any other
overflow. -/
theorem ofInt_div_ofInt (m n : Int) :
    Int64.ofInt m / Int64.ofInt n = Int64.ofInt ((wrap m).tdiv (wrap n)) := by
  rw [← Int64.toInt_inj, Int64.toInt_div, toInt_ofInt_eq_wrap, toInt_ofInt_eq_wrap,
    toInt_ofInt_eq_wrap]
  rfl

open Arith in
theorem Operation.intOp_ofInt (operation : Operation) (m n : Int) :
    Value.intOp (Int64.ofInt m) operation.operator (Int64.ofInt n) =
      reduced (operation.reference m n) := by
  cases operation with
  | sum =>
    rw [reference, reduced, Int64.ofInt_add]
    rfl
  | difference =>
    rw [reference, reduced, Int64.ofInt_sub]
    rfl
  | product =>
    rw [reference, reduced, Int64.ofInt_mul]
    rfl
  | quotient =>
    show (if Int64.ofInt n = 0 then _ else _) = reduced (if wrap n = 0 then _ else _)
    simp only [ofInt_eq_zero_iff, ofInt_div_ofInt]
    split <;> rfl

namespace Arith

theorem prefixOp_ofInt (n : Int) :
    (Value.int (Int64.ofInt n)).prefixOp .minus = reduced (some (-n)) := by
  rw [reduced, Int64.ofInt_neg]
  rfl

/-! ## Trees -/

variable (apply : Value → List Value → Action Value) (scope : ScopeId)

theorem expr_negative {right : Expr} {n : Option Int}
    (value : Eval.expr apply scope right = .ofExcept (reduced n)) :
    Eval.expr apply scope (.prefixOp .minus right) = .ofExcept (reduced (n.map (- ·))) := by
  rw [Eval.expr, value]
  cases n with
  | none => rfl
  | some n => exact congrArg Action.ofExcept (prefixOp_ofInt n)

theorem expr_binary {left right : Expr} {m n : Option Int} (operation : Operation)
    (first : Eval.expr apply scope left = .ofExcept (reduced m))
    (second : Eval.expr apply scope right = .ofExcept (reduced n)) :
    Eval.expr apply scope (.infixOp left operation.operator right) =
      .ofExcept (reduced (m.bind fun m => n.bind (operation.reference m))) := by
  rw [Eval.expr, first, second]
  cases m with
  | none => rfl
  | some m =>
    cases n with
    | none => rfl
    | some n => exact congrArg Action.ofExcept (operation.intOp_ofInt m n)

theorem expr_eq_reduced (a : Arith) :
    Eval.expr apply scope a.expr = .ofExcept (reduced a.reference) := by
  induction a with
  | literal n =>
    show Pure.pure (Value.int n) = Pure.pure (Value.int (Int64.ofInt n.toInt))
    rw [Int64.ofInt_toInt]
  | negative right ih => exact expr_negative apply scope ih
  | binary left operation right ihLeft ihRight =>
    exact expr_binary apply scope operation ihLeft ihRight

end Arith

/-- Arithmetic fails exactly if its reference divides by zero, and otherwise it comes to the word of
the reference; nothing else happens.  So the smallest word is what it is divided by minus one, and
its own negative. -/
theorem eval_arithmetic (apply : Value → List Value → Action Value) (scope : ScopeId)
    (scopes : Scopes) (a : Arith) :
    (match a.reference with
      | none =>
        Eval.expr apply scope a.expr scopes = ⟨.error (.error .divisionByZero), scopes, []⟩
      | some n =>
        ∃ word : Int64, word.toInt = wrap n ∧
          Eval.expr apply scope a.expr scopes = ⟨.ok (.int word), scopes, []⟩) ∧
    Eval.expr apply scope
        (Arith.binary (.literal .minValue) .quotient (.literal (-1))).expr scopes =
      ⟨.ok (.int .minValue), scopes, []⟩ ∧
    Eval.expr apply scope (Arith.negative (.literal .minValue)).expr scopes =
      ⟨.ok (.int .minValue), scopes, []⟩ := by
  refine ⟨?_, rfl, rfl⟩
  rw [Arith.expr_eq_reduced]
  cases a.reference with
  | none => rfl
  | some n => exact ⟨Int64.ofInt n, toInt_ofInt_eq_wrap n, rfl⟩

end TreeWalk
