import TreeWalk.Token

/-!
# Syntax trees

Programs, statements, blocks and expressions.  Names, statements and blocks keep the token they
begin with; everything else in a tree is free of its spelling.

Results:
1. an operator is the operator of the token that its symbol spells, and only the nine operator
   tokens have one (`Operator.ofToken?_token`, `Operator.ofToken?_eq_some`).
-/

namespace TreeWalk

/-! ## Operators -/

/-- The operators.  The parser builds prefix expressions with the first two and infix expressions
with the last eight; a tree may hold any of them in either place. -/
inductive Operator where
  | bang
  | minus
  | plus
  | asterisk
  | slash
  | lt
  | gt
  | eq
  | notEq
deriving DecidableEq, Repr

namespace Operator

def symbol : Operator → String
  | bang => "!"
  | minus => "-"
  | plus => "+"
  | asterisk => "*"
  | slash => "/"
  | lt => "<"
  | gt => ">"
  | eq => "=="
  | notEq => "!="

/-- The token that writes the operator. -/
def token : Operator → Token
  | bang => .bang
  | minus => .minus
  | plus => .plus
  | asterisk => .asterisk
  | slash => .slash
  | lt => .lt
  | gt => .gt
  | eq => .eq
  | notEq => .notEq

/-- The operator that a token writes. -/
def ofToken? : Token → Option Operator
  | .bang => some bang
  | .minus => some minus
  | .plus => some plus
  | .asterisk => some asterisk
  | .slash => some slash
  | .lt => some lt
  | .gt => some gt
  | .eq => some eq
  | .notEq => some notEq
  | _ => none

theorem ofToken?_token (op : Operator) : ofToken? op.token = some op := by
  cases op <;> rfl

theorem ofToken?_eq_some {token : Token} {op : Operator} :
    ofToken? token = some op ↔ token = op.token := by
  constructor
  · intro found
    unfold ofToken? at found
    split at found <;> cases found <;> rfl
  · rintro rfl
    exact ofToken?_token op

end Operator

/-! ## Trees -/

/-- A name, with the token it was read from. -/
structure Ident where
  token : Token
deriving DecidableEq, Repr

namespace Ident

/-- The name is the text of its token. -/
def name (ident : Ident) : String :=
  ident.token.literal

/-- The identifier of a given name. -/
def ofName (name : String) : Ident :=
  ⟨.ident name⟩

@[simp] theorem name_ofName (name : String) : (ofName name).name = name :=
  rfl

end Ident

mutual

/-- An expression. -/
inductive Expr where
  | ident (name : Ident)
  | int (value : Int64)
  | str (value : String)
  | bool (value : Bool)
  | prefixOp (op : Operator) (right : Expr)
  | infixOp (left : Expr) (op : Operator) (right : Expr)
  | ifElse (condition : Expr) (consequence : Block) (alternative : Option Block)
  | fn (params : List Ident) (body : Block)
  | call (callee : Expr) (args : List Expr)

/-- A statement: a binding, a return, or an expression. -/
inductive Stmt where
  | bind (token : Token) (name : Ident) (value : Expr)
  | ret (token : Token) (value : Expr)
  | expr (token : Token) (value : Expr)

/-- The statements between two braces. -/
inductive Block where
  | mk (token : Token) (statements : List Stmt)

end

/-- A program is a list of statements. -/
structure Program where
  statements : List Stmt

namespace Block

def token : Block → Token
  | mk token _ => token

def statements : Block → List Stmt
  | mk _ statements => statements

end Block

namespace Stmt

/-- The token a statement begins with. -/
def token : Stmt → Token
  | bind token .. => token
  | ret token _ => token
  | expr token _ => token

end Stmt

end TreeWalk
