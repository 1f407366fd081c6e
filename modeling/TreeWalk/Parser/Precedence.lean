import TreeWalk.Token

/-!
# Precedence

How tightly a token binds the operand before it.  Tokens that continue no expression bind loosest,
so a comparison of precedences is all that ends an expression (`Precedence.not_lt_lowest`).
-/

namespace TreeWalk

/-- Precedences, from the loosest to the tightest. -/
inductive Precedence where
  | lowest
  | equals
  | lessGreater
  | sum
  | product
  | prefixed
  | call
deriving DecidableEq, Repr

namespace Precedence

/-- The place of a precedence among the others. -/
def level : Precedence → Nat
  | lowest => 0
  | equals => 1
  | lessGreater => 2
  | sum => 3
  | product => 4
  | prefixed => 5
  | call => 6

instance : LT Precedence where
  lt p q := p.level < q.level

instance (p q : Precedence) : Decidable (p < q) :=
  inferInstanceAs (Decidable (p.level < q.level))

theorem lt_iff {p q : Precedence} : p < q ↔ p.level < q.level :=
  Iff.rfl

/-- How tightly a token binds the operand before it. -/
def ofKind : TokenKind → Precedence
  | .eq | .notEq => equals
  | .lt | .gt => lessGreater
  | .plus | .minus => sum
  | .slash | .asterisk => product
  | .lparen => call
  | _ => lowest

theorem not_lt_lowest (p : Precedence) : ¬ p < lowest :=
  Nat.not_lt_zero _

end Precedence

end TreeWalk
