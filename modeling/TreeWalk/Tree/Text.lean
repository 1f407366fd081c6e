import TreeWalk.Decimal
import TreeWalk.Tree

/-!
# Trees as text

Every tree has one canonical text.  Operator expressions are written in parentheses, so that no
precedence is needed to read them, and every statement ends in a semicolon, so that it ends where
it should when statements follow one another.

Results:
1. a list of trees is written one by one (`Expr.texts_eq_map`, `Stmt.texts_eq_map`).
-/

namespace TreeWalk

/-- The names of parameters, as a function writes them between its parentheses. -/
def Ident.listText (params : List Ident) : String :=
  ", ".intercalate (params.map Ident.name)

mutual

/-- The text of an expression. -/
def Expr.text : Expr → String
  | .ident name => name.name
  | .int value => Decimal.ofInt64 value
  | .str value => "\"" ++ value ++ "\""
  | .bool value => if value then "true" else "false"
  | .prefixOp op right => "(" ++ op.symbol ++ right.text ++ ")"
  | .infixOp left op right => "(" ++ left.text ++ " " ++ op.symbol ++ " " ++ right.text ++ ")"
  | .ifElse cond yes none => "if (" ++ cond.text ++ ") " ++ yes.text
  | .ifElse cond yes (some no) => "if (" ++ cond.text ++ ") " ++ yes.text ++ " else " ++ no.text
  | .fn params body => "fn(" ++ Ident.listText params ++ ") " ++ body.text
  | .call callee args => callee.text ++ "(" ++ ", ".intercalate (Expr.texts args) ++ ")"

/-- The texts of expressions, in order. -/
def Expr.texts : List Expr → List String
  | [] => []
  | e :: es => e.text :: Expr.texts es

/-- The text of a statement. -/
def Stmt.text : Stmt → String
  | .bind token name value => token.literal ++ " " ++ name.name ++ " = " ++ value.text ++ ";"
  | .ret token value => token.literal ++ " " ++ value.text ++ ";"
  | .expr _ value => value.text ++ ";"

/-- The texts of statements, in order. -/
def Stmt.texts : List Stmt → List String
  | [] => []
  | s :: ss => s.text :: Stmt.texts ss

/-- The text of a block: its statements between braces, each with a blank after it. -/
def Block.text : Block → String
  | .mk _ statements => "\x7b " ++ String.join ((Stmt.texts statements).map (· ++ " ")) ++ "\x7d"

end

theorem Expr.texts_eq_map (es : List Expr) : Expr.texts es = es.map Expr.text := by
  induction es with
  | nil => rfl
  | cons e es ih => rw [Expr.texts, ih, List.map_cons]

theorem Stmt.texts_eq_map (ss : List Stmt) : Stmt.texts ss = ss.map Stmt.text := by
  induction ss with
  | nil => rfl
  | cons s ss ih => rw [Stmt.texts, ih, List.map_cons]

/-- The text of a program: its statements, with nothing between them. -/
def Program.text (program : Program) : String :=
  String.join (program.statements.map Stmt.text)

end TreeWalk
