import TreeWalk.Decimal
import TreeWalk.Tree

/-!
# Outlines

An outline lists the nodes of a tree in preorder, each with its depth, its kind and the literal of
the token that introduces it.

Results:
1. an outline begins with the node itself, at the depth it was asked for
   (`Expr.head?_outline`, `Stmt.head?_outline`, `Block.head?_outline`).
-/

namespace TreeWalk

/-- What a node of a tree is. -/
inductive NodeKind where
  | letStmt
  | returnStmt
  | exprStmt
  | boundName
  | identifier
  | integer
  | string
  | boolean
  | prefixExpr
  | infixExpr
  | conditional
  | function
  | parameter
  | call
  | block
deriving DecidableEq, Repr

def NodeKind.label : NodeKind → String
  | letStmt => "Let"
  | returnStmt => "Return"
  | exprStmt => "Expr"
  | boundName => "Name"
  | identifier => "Identifier"
  | integer => "IntegerLiteral"
  | string => "String"
  | boolean => "Boolean"
  | prefixExpr => "Prefix"
  | infixExpr => "Infix"
  | conditional => "If"
  | function => "Function"
  | parameter => "Parameter"
  | call => "Call"
  | block => "Block"

/-- One line of an outline. -/
structure OutlineRow where
  depth : Nat
  kind : NodeKind
  literal : String
deriving DecidableEq, Repr

/-! ## The literal of a node -/

/-- The text of the token that introduces an expression.  For an operator expression that is the
operator, and for a call the parenthesis before the arguments. -/
def Expr.literal : Expr → String
  | .ident name => name.token.literal
  | .int value => Decimal.ofInt64 value
  | .str value => value
  | .bool value => if value then "true" else "false"
  | .prefixOp op _ | .infixOp _ op _ => op.symbol
  | .ifElse .. => Token.literal .ifWord
  | .fn .. => Token.literal .fnWord
  | .call .. => Token.literal .lparen

/-- The kind of an expression. -/
def Expr.nodeKind : Expr → NodeKind
  | .ident _ => .identifier
  | .int _ => .integer
  | .str _ => .string
  | .bool _ => .boolean
  | .prefixOp .. => .prefixExpr
  | .infixOp .. => .infixExpr
  | .ifElse .. => .conditional
  | .fn .. => .function
  | .call .. => .call

/-- The kind of a statement. -/
def Stmt.nodeKind : Stmt → NodeKind
  | .bind .. => .letStmt
  | .ret .. => .returnStmt
  | .expr .. => .exprStmt

/-- The literal of a program is that of its first statement. -/
def Program.literal (program : Program) : String :=
  match program.statements with
  | [] => ""
  | first :: _ => first.token.literal

/-! ## Outlines -/

mutual

/-- The nodes of an expression that stands at a depth. -/
def Expr.outline (depth : Nat) (e : Expr) : List OutlineRow :=
  ⟨depth, e.nodeKind, e.literal⟩ ::
    match e with
    | .ident _ | .int _ | .str _ | .bool _ => []
    | .prefixOp _ right => right.outline (depth + 1)
    | .infixOp left _ right => left.outline (depth + 1) ++ right.outline (depth + 1)
    | .ifElse cond yes none => cond.outline (depth + 1) ++ yes.outline (depth + 1)
    | .ifElse cond yes (some no) =>
      cond.outline (depth + 1) ++ yes.outline (depth + 1) ++ no.outline (depth + 1)
    | .fn params body =>
      params.map (fun p => ⟨depth + 1, .parameter, p.token.literal⟩) ++ body.outline (depth + 1)
    | .call callee args => callee.outline (depth + 1) ++ Expr.outlines (depth + 1) args

/-- The nodes of expressions that stand side by side. -/
def Expr.outlines (depth : Nat) : List Expr → List OutlineRow
  | [] => []
  | e :: es => e.outline depth ++ Expr.outlines depth es

/-- The nodes of a statement that stands at a depth. -/
def Stmt.outline (depth : Nat) (s : Stmt) : List OutlineRow :=
  ⟨depth, s.nodeKind, s.token.literal⟩ ::
    match s with
    | .bind _ name value =>
      ⟨depth + 1, .boundName, name.token.literal⟩ :: value.outline (depth + 1)
    | .ret _ value | .expr _ value => value.outline (depth + 1)

/-- The nodes of statements that follow one another. -/
def Stmt.outlines (depth : Nat) : List Stmt → List OutlineRow
  | [] => []
  | s :: ss => s.outline depth ++ Stmt.outlines depth ss

/-- The nodes of a block that stands at a depth. -/
def Block.outline (depth : Nat) : Block → List OutlineRow
  | .mk token statements =>
    ⟨depth, .block, token.literal⟩ :: Stmt.outlines (depth + 1) statements

end

/-- The nodes of a program, its statements at depth zero. -/
def Program.outline (program : Program) : List OutlineRow :=
  Stmt.outlines 0 program.statements

theorem Expr.head?_outline (depth : Nat) (e : Expr) :
    (e.outline depth).head? = some ⟨depth, e.nodeKind, e.literal⟩ := by
  unfold Expr.outline
  rfl

theorem Stmt.head?_outline (depth : Nat) (s : Stmt) :
    (s.outline depth).head? = some ⟨depth, s.nodeKind, s.token.literal⟩ := by
  unfold Stmt.outline
  rfl

theorem Block.head?_outline (depth : Nat) (b : Block) :
    (b.outline depth).head? = some ⟨depth, .block, b.token.literal⟩ := by
  cases b
  rfl

end TreeWalk
