import TreeWalk.Tree.Equality
import TreeWalk.Tree.Text

/-!
# Values

What expressions evaluate to.  A return in progress is a value too: it wraps the value to be
returned and passes through every construct on its way out of the function.

Results:
1. unwrapping takes off one wrapper and leaves every other value as it is
   (`Value.unwrap_returned`, `Value.unwrap_of_not_isReturned`).
-/

namespace TreeWalk

/-! ## Errors -/

/-- Why evaluation stopped. -/
inductive EvalError where
  /-- No scope in sight binds the name, and no built-in function has it. -/
  | unbound (name : String)
  | badPrefix (op : Operator) (operand : String)
  /-- The operator is not defined for operands of their common type. -/
  | badInfix (left : String) (op : Operator) (right : String)
  /-- The types of the operands differ. -/
  | mismatch (left : String) (op : Operator) (right : String)
  | divisionByZero
  | notCallable (type : String)
  | badArgument (function type : String)
  | wrongArity (got want : Nat)
deriving DecidableEq, Repr

namespace EvalError

/-- The error for an operator that its two operands, of the given types, do not support. -/
def ofOperands (left : String) (op : Operator) (right : String) : EvalError :=
  if left = right then badInfix left op right else mismatch left op right

def message : EvalError → String
  | unbound name => "identifier not found: " ++ name
  | badPrefix op operand => "unknown operator: " ++ op.symbol ++ operand
  | badInfix left op right => "unknown operator: " ++ left ++ " " ++ op.symbol ++ " " ++ right
  | mismatch left op right => "type mismatch: " ++ left ++ " " ++ op.symbol ++ " " ++ right
  | divisionByZero => "division by zero"
  | notCallable type => "not a function: " ++ type
  | badArgument function type => "argument to `" ++ function ++ "` not supported, got " ++ type
  | wrongArity got want =>
    "wrong number of arguments. got=" ++ Decimal.ofNat got ++ ", want=" ++ Decimal.ofNat want

end EvalError

/-! ## Functions -/

/-- The functions that need no definition. -/
inductive Builtin where
  | len
  | puts
deriving DecidableEq, Repr

namespace Builtin

def name : Builtin → String
  | len => "len"
  | puts => "puts"

/-- The built-in function of a given name. -/
def ofName? (name : String) : Option Builtin :=
  [len, puts].find? (·.name == name)

/-- How a built-in function is shown to someone who looks into the interpreter. -/
def description (builtin : Builtin) : String :=
  "Builtin(\"" ++ builtin.name ++ "\")"

theorem ofName?_eq_some {name : String} {builtin : Builtin} :
    ofName? name = some builtin ↔ builtin.name = name := by
  constructor
  · intro found
    simpa using List.find?_some found
  · rintro rfl
    cases builtin <;> decide

end Builtin

/-- A scope is told by its number: scopes are numbered as they are opened. -/
abbrev ScopeId := Nat

/-- A function together with the scope it was made in.  Two are equal if their parameters and
bodies are and they were made in the same scope. -/
structure Closure where
  params : List Ident
  body : Block
  scope : ScopeId
deriving DecidableEq

/-- A function is written as in a program. -/
def Closure.text (closure : Closure) : String :=
  (Expr.fn closure.params closure.body).text

/-! ## Values -/

/-- A value. -/
inductive Value where
  | int (value : Int64)
  | bool (value : Bool)
  | str (value : String)
  | null
  /-- A return in progress. -/
  | returned (value : Value)
  | error (error : EvalError)
  | function (closure : Closure)
  | builtin (builtin : Builtin)
deriving DecidableEq

namespace Value

def typeName : Value → String
  | int _ => "INTEGER"
  | bool _ => "BOOLEAN"
  | str _ => "STRING"
  | null => "NULL"
  | returned _ => "RETURN_VALUE"
  | error _ => "ERROR"
  | function _ => "FUNCTION"
  | builtin _ => "BUILTIN"

/-- The value as the language prints it.  A return in progress prints as what it returns. -/
def text : Value → String
  | int n => Decimal.ofInt64 n
  | bool b => if b then "true" else "false"
  | str s => s
  | null => "null"
  | returned value => value.text
  | error e => "ERROR:" ++ e.message
  | function closure => closure.text
  | builtin _ => "builtin function"

/-- Only `false` and `null` count as false. -/
def truthy : Value → Bool
  | bool false | null => false
  | _ => true

def isReturned : Value → Bool
  | returned _ => true
  | _ => false

/-- Takes off one wrapper of a return in progress. -/
def unwrap : Value → Value
  | returned value => value
  | value => value

@[simp] theorem unwrap_returned (value : Value) : (returned value).unwrap = value :=
  rfl

theorem unwrap_of_not_isReturned {value : Value} (plain : value.isReturned = false) :
    value.unwrap = value := by
  cases value <;> simp_all [isReturned, unwrap]

end Value

end TreeWalk
