import TreeWalk.Tree.Text

/-!
# Bare trees

The token kept by a statement that is an expression depends on how the statement was spelled, not on
what it means.  A bare tree has a fixed token in its place, at every depth.

Results:
1. the text of a tree is that of its bare tree (`Expr.text_bare`, `Stmt.text_bare`,
   `Program.text_bare`).
-/

namespace TreeWalk

mutual

/-- An expression without the tokens of the expression statements in it. -/
def Expr.bare : Expr → Expr
  | .ident name => .ident name
  | .int value => .int value
  | .str value => .str value
  | .bool value => .bool value
  | .prefixOp op right => .prefixOp op right.bare
  | .infixOp left op right => .infixOp left.bare op right.bare
  | .ifElse cond yes none => .ifElse cond.bare yes.bare none
  | .ifElse cond yes (some no) => .ifElse cond.bare yes.bare (some no.bare)
  | .fn params body => .fn params body.bare
  | .call callee args => .call callee.bare (Expr.bares args)

/-- Expressions without those tokens, one by one. -/
def Expr.bares : List Expr → List Expr
  | [] => []
  | e :: es => e.bare :: Expr.bares es

/-- A statement without those tokens. -/
def Stmt.bare : Stmt → Stmt
  | .bind token name value => .bind token name value.bare
  | .ret token value => .ret token value.bare
  | .expr _ value => .expr .eof value.bare

/-- Statements without those tokens, one by one. -/
def Stmt.bares : List Stmt → List Stmt
  | [] => []
  | s :: ss => s.bare :: Stmt.bares ss

/-- A block without those tokens. -/
def Block.bare : Block → Block
  | .mk token statements => .mk token (Stmt.bares statements)

end

/-- A program without the tokens of its expression statements. -/
def Program.bare (program : Program) : Program :=
  ⟨Stmt.bares program.statements⟩

/-! ## Texts -/

mutual

theorem Expr.text_bare : ∀ e : Expr, e.bare.text = e.text
  | .ident _ | .int _ | .str _ | .bool _ => by rw [Expr.bare]
  | .prefixOp _ right => by rw [Expr.bare, Expr.text, Expr.text, right.text_bare]
  | .infixOp left _ right => by
    rw [Expr.bare, Expr.text, Expr.text, left.text_bare, right.text_bare]
  | .ifElse cond yes none => by
    rw [Expr.bare, Expr.text, Expr.text, cond.text_bare, yes.text_bare]
  | .ifElse cond yes (some no) => by
    rw [Expr.bare, Expr.text, Expr.text, cond.text_bare, yes.text_bare, no.text_bare]
  | .fn _ body => by rw [Expr.bare, Expr.text, Expr.text, body.text_bare]
  | .call callee args => by
    rw [Expr.bare, Expr.text, Expr.text, callee.text_bare, Expr.texts_bares args]

theorem Expr.texts_bares : ∀ es : List Expr, Expr.texts (Expr.bares es) = Expr.texts es
  | [] => rfl
  | e :: es => by rw [Expr.bares, Expr.texts, Expr.texts, e.text_bare, Expr.texts_bares es]

theorem Stmt.text_bare : ∀ s : Stmt, s.bare.text = s.text
  | .bind _ _ value | .ret _ value | .expr _ value => by
    rw [Stmt.bare, Stmt.text, Stmt.text, value.text_bare]

theorem Stmt.texts_bares : ∀ ss : List Stmt, Stmt.texts (Stmt.bares ss) = Stmt.texts ss
  | [] => rfl
  | s :: ss => by rw [Stmt.bares, Stmt.texts, Stmt.texts, s.text_bare, Stmt.texts_bares ss]

theorem Block.text_bare : ∀ b : Block, b.bare.text = b.text
  | .mk _ statements => by rw [Block.bare, Block.text, Block.text, Stmt.texts_bares statements]

end

theorem Program.text_bare (program : Program) : program.bare.text = program.text := by
  rw [Program.text, Program.text, Program.bare, ← Stmt.texts_eq_map, ← Stmt.texts_eq_map,
    Stmt.texts_bares]

theorem Program.text_of_bare {p q : Program} (same : p.bare = q.bare) : p.text = q.text := by
  rw [← p.text_bare, ← q.text_bare, same]

end TreeWalk
