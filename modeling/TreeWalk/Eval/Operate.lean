import TreeWalk.Value

/-!
# Operators on values

Integers are 64-bit words: sums, differences, products and negatives wrap around, and quotients are
cut off toward zero.  Booleans can only be told apart, and strings only joined.

Results:
1. operators yield integers, booleans and strings, and nothing else (`Value.isScalar_prefixOp`,
   `Value.isScalar_infixOp`).
-/

namespace TreeWalk

namespace Value

/-- A prefix operator applied to a value. -/
def prefixOp (op : Operator) (right : Value) : Except EvalError Value :=
  match op, right with
  | .bang, right => .ok (bool !right.truthy)
  | .minus, int n => .ok (int (-n))
  | op, right => .error (.badPrefix op right.typeName)

/-- An infix operator applied to two integers. -/
def intOp (left : Int64) (op : Operator) (right : Int64) : Except EvalError Value :=
  match op with
  | .plus => .ok (int (left + right))
  | .minus => .ok (int (left - right))
  | .asterisk => .ok (int (left * right))
  | .slash => if right = 0 then .error .divisionByZero else .ok (int (left / right))
  | .lt => .ok (bool (left < right))
  | .gt => .ok (bool (right < left))
  | .eq => .ok (bool (left = right))
  | .notEq => .ok (bool (left ≠ right))
  | .bang => .error (.ofOperands (int left).typeName op (int right).typeName)

/-- An infix operator applied to two values. -/
def infixOp (left : Value) (op : Operator) (right : Value) : Except EvalError Value :=
  match left, op, right with
  | int m, op, int n => intOp m op n
  | bool p, .eq, bool q => .ok (bool (p = q))
  | bool p, .notEq, bool q => .ok (bool (p ≠ q))
  | str s, .plus, str t => .ok (str (s ++ t))
  | left, op, right => .error (.ofOperands left.typeName op right.typeName)

/-- An integer, a boolean or a string. -/
def IsScalar : Value → Prop
  | int _ | bool _ | str _ => True
  | _ => False

theorem isScalar_prefixOp {op : Operator} {right result : Value}
    (done : right.prefixOp op = .ok result) : result.IsScalar := by
  unfold prefixOp at done
  split at done <;> cases done <;> trivial

theorem isScalar_intOp {op : Operator} {m n : Int64} {result : Value}
    (done : intOp m op n = .ok result) : result.IsScalar := by
  unfold intOp at done
  repeat' split at done
  all_goals cases done <;> trivial

theorem isScalar_infixOp {op : Operator} {left right result : Value}
    (done : left.infixOp op right = .ok result) : result.IsScalar := by
  unfold infixOp at done
  split at done
  · exact isScalar_intOp done
  all_goals cases done <;> trivial

end Value

end TreeWalk
