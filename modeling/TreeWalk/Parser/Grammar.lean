import TreeWalk.Decimal
import TreeWalk.Parser.Precedence
import TreeWalk.Parser.Rule
import TreeWalk.Tree

/-!
# The grammar

A program is a sequence of statements: bindings, returns and expressions, each with an optional
semicolon.  Expressions are read by precedence: an operand, then every operator and argument list
that binds tighter than the context does.  A statement that fails is dropped, and reading goes on
after the token at which it failed.

Every rule is written for a bound on the number of tokens left and for a given rule for nested
expressions.  `expression` ties the knot: each nested expression begins at least one token later
than the one around it, so a bound equal to the number of tokens is as good as none.
-/

namespace TreeWalk

namespace Grammar

open Rule

/-! ## Leaves -/

/-- A name, which has to come next. -/
def name : Rule Ident := do
  expect .ident
  let token ← current
  pure ⟨token⟩

/-- An integer, under the cursor. -/
def integer (text : String) : Rule Expr :=
  traced .integerLiteral
    (match Decimal.int64? text with
    | some value => pure (.int value)
    | none => fail (.badInteger text))

/-! ## Lists -/

/-- The rest of a list of parameters: each after a comma. -/
def moreParams : Nat → Rule (List Ident)
  | 0 => pure []
  | bound + 1 => do
    let next ← peek
    if next.kind = .comma then do
      advance
      let param ← name
      let params ← moreParams bound
      pure (param :: params)
    else pure []

/-- The parameters of a function and the parenthesis that closes them. -/
def params (bound : Nat) : Rule (List Ident) := do
  let next ← peek
  if next.kind = .rparen then do
    advance
    pure []
  else do
    let param ← name
    let more ← moreParams bound
    expect .rparen
    pure (param :: more)

section

variable (expr : Precedence → Rule Expr)

/-- The rest of a list of arguments: each after a comma. -/
def moreArgs : Nat → Rule (List Expr)
  | 0 => pure []
  | bound + 1 => do
    let next ← peek
    if next.kind = .comma then do
      advance
      advance
      let arg ← expr .lowest
      let args ← moreArgs bound
      pure (arg :: args)
    else pure []

/-- The arguments of a call and the parenthesis that closes them. -/
def args (bound : Nat) : Rule (List Expr) := do
  let next ← peek
  if next.kind = .rparen then do
    advance
    pure []
  else do
    advance
    let arg ← expr .lowest
    let more ← moreArgs expr bound
    expect .rparen
    pure (arg :: more)

/-! ## Statements -/

/-- A binding, `let` under the cursor. -/
def letStmt : Rule Stmt := do
  let token ← current
  let bound ← name
  expect .assign
  advance
  let value ← expr .lowest
  skip .semicolon
  pure (.bind token bound value)

/-- A return, `return` under the cursor. -/
def returnStmt : Rule Stmt := do
  let token ← current
  advance
  let value ← expr .lowest
  skip .semicolon
  pure (.ret token value)

/-- An expression that stands as a statement. -/
def exprStmt : Rule Stmt :=
  traced .expressionStatement do
    let token ← current
    let value ← expr .lowest
    skip .semicolon
    pure (.expr token value)

/-- A statement, told by its first token. -/
def statement : Rule Stmt := do
  let first ← current
  match first.kind with
  | .letWord => letStmt expr
  | .returnWord => returnStmt expr
  | _ => exprStmt expr

/-- The statements up to a token of one of the given kinds or the end of the text. -/
def statements (ends : List TokenKind) : Nat → Rule (List Stmt)
  | 0 => pure []
  | bound + 1 => do
    let first ← current
    if first.kind ∈ TokenKind.eof :: ends then pure []
    else do
      let read ← attempt (statement expr)
      advance
      let more ← statements ends bound
      pure (read.toList ++ more)

/-- A block, its brace under the cursor.  It may be cut off by the end of the text. -/
def block (bound : Nat) : Rule Block := do
  let token ← current
  advance
  let inside ← statements expr [.rbrace] bound
  pure (.mk token inside)

/-! ## Expressions -/

/-- An operator and its only operand, the operator under the cursor. -/
def prefixExpr (op : Operator) : Rule Expr :=
  traced .prefixExpression do
    advance
    let right ← expr .prefixed
    pure (.prefixOp op right)

/-- An expression in parentheses, the first one under the cursor. -/
def grouped : Rule Expr := do
  advance
  let inner ← expr .lowest
  expect .rparen
  pure inner

/-- What follows `else`, if that comes next. -/
def alternative (bound : Nat) : Rule (Option Block) := do
  let next ← peek
  if next.kind = .elseWord then do
    advance
    expect .lbrace
    let no ← block expr bound
    pure (some no)
  else pure none

/-- A conditional, `if` under the cursor. -/
def conditional (bound : Nat) : Rule Expr := do
  expect .lparen
  advance
  let cond ← expr .lowest
  expect .rparen
  expect .lbrace
  let yes ← block expr bound
  let no ← alternative expr bound
  pure (.ifElse cond yes no)

/-- A function, `fn` under the cursor. -/
def function (bound : Nat) : Rule Expr := do
  expect .lparen
  let parameters ← params bound
  expect .lbrace
  let body ← block expr bound
  pure (.fn parameters body)

/-- An expression that no operator or argument list continues. -/
def operand (bound : Nat) : Rule Expr := do
  let first ← current
  match first with
  | .ident _ => pure (.ident ⟨first⟩)
  | .int text => integer text
  | .str text => pure (.str text)
  | .trueWord => pure (.bool true)
  | .falseWord => pure (.bool false)
  | .bang => prefixExpr expr .bang
  | .minus => prefixExpr expr .minus
  | .lparen => grouped expr
  | .ifWord => conditional expr bound
  | .fnWord => function expr bound
  | _ => fail (.noExpression first.kind)

/-- An operator and its right operand, the operator under the cursor. -/
def infixExpr (left : Expr) (op : Operator) (precedence : Precedence) : Rule Expr :=
  traced .infixExpression do
    advance
    let right ← expr precedence
    pure (.infixOp left op right)

/-- An operand together with the token after it: an operator takes another operand, and the only
other token that binds at all, a parenthesis, takes arguments. -/
def extend (bound : Nat) (left : Expr) (next : Token) : Rule Expr := do
  advance
  match Operator.ofToken? next with
  | some op => infixExpr expr left op (.ofKind next.kind)
  | none => do
    let arguments ← args expr bound
    pure (.call left arguments)

/-- An operand with all that binds to it tighter than the context does. -/
def extensions (context : Precedence) (bound : Nat) : Nat → Expr → Rule Expr
  | 0, left => pure left
  | steps + 1, left => do
    let next ← peek
    if context < .ofKind next.kind then do
      let longer ← extend expr bound left next
      extensions context bound steps longer
    else pure left

end

/-- An expression within a context, for at most `bound` tokens from the cursor on. -/
def expression : Nat → Precedence → Rule Expr
  | 0, _ => traced .expression (fail (.noExpression .eof))
  | bound + 1, context =>
    traced .expression do
      let left ← operand (expression bound) bound
      extensions (expression bound) context bound bound left

/-- The statements of a program of at most `bound` tokens. -/
def program (bound : Nat) : Rule (List Stmt) :=
  statements (expression bound) [] bound

end Grammar

end TreeWalk
