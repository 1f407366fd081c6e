import TreeWalk.Decimal
import TreeWalk.Proofs.Spelling

/-!
# Derivations

The language as a grammar in the usual sense.  An expression is a row of operands with infix
operators between them; nothing is said of how they associate, or of where one statement ends and
the next one begins.

Results:
1. expressions are closed under what the parser does with them: they take signs, argument lists and
   operators with another expression behind them (`Derives.sign`, `Derives.apply`, `Derives.join`).
-/

namespace TreeWalk

/-- The nonterminals of the grammar. -/
inductive Nonterminal where
  /-- Any number of statements, one after another. -/
  | stmts
  /-- A statement, with a semicolon or without. -/
  | stmt
  /-- A statement without its semicolon. -/
  | clause
  | block
  | expr
  | unary
  /-- A primary expression and any number of argument lists. -/
  | applied
  | primary
  /-- The arguments of a call, with their parentheses. -/
  | args
  /-- Arguments after the first one, each with a comma before it. -/
  | moreArgs

/-- `Derives n tokens`: the grammar generates the tokens from the nonterminal. -/
inductive Derives : Nonterminal → List Token → Prop
  | noStmts : Derives .stmts []
  | moreStmts {u v : List Token} : Derives .stmt u → Derives .stmts v → Derives .stmts (u ++ v)
  | unended {u : List Token} : Derives .clause u → Derives .stmt u
  | ended {u : List Token} : Derives .clause u → Derives .stmt (u ++ [.semicolon])
  | bind (name : String) {u : List Token} :
      Derives .expr u → Derives .clause (.letWord :: .ident name :: .assign :: u)
  | ret {u : List Token} : Derives .expr u → Derives .clause (.returnWord :: u)
  | exprClause {u : List Token} : Derives .expr u → Derives .clause u
  | block {u : List Token} : Derives .stmts u → Derives .block (.lbrace :: (u ++ [.rbrace]))
  | operand {u : List Token} : Derives .unary u → Derives .expr u
  | infixOp {op : Operator} {u v : List Token} :
      op ≠ .bang → Derives .expr u → Derives .unary v → Derives .expr (u ++ op.token :: v)
  | prefixOp {op : Operator} {u : List Token} :
      op = .bang ∨ op = .minus → Derives .unary u → Derives .unary (op.token :: u)
  | unsigned {u : List Token} : Derives .applied u → Derives .unary u
  | bare {u : List Token} : Derives .primary u → Derives .applied u
  | call {u v : List Token} : Derives .applied u → Derives .args v → Derives .applied (u ++ v)
  | ident (name : String) : Derives .primary [.ident name]
  | int {text : String} {value : Int64} :
      Decimal.int64? text = some value → Derives .primary [.int text]
  | str (text : String) : Derives .primary [.str text]
  | trueWord : Derives .primary [.trueWord]
  | falseWord : Derives .primary [.falseWord]
  | group {u : List Token} : Derives .expr u → Derives .primary (.lparen :: (u ++ [.rparen]))
  | ifThen {u v : List Token} :
      Derives .expr u → Derives .block v →
      Derives .primary (.ifWord :: .lparen :: (u ++ .rparen :: v))
  | ifElse {u v w : List Token} :
      Derives .expr u → Derives .block v → Derives .block w →
      Derives .primary (.ifWord :: .lparen :: (u ++ .rparen :: (v ++ .elseWord :: w)))
  | fn (names : List String) {u : List Token} :
      Derives .block u → Derives .primary (.fnWord :: .lparen :: (nameList names ++ .rparen :: u))
  | noArgs : Derives .args [.lparen, .rparen]
  | someArgs {u v : List Token} :
      Derives .expr u → Derives .moreArgs v → Derives .args (.lparen :: (u ++ (v ++ [.rparen])))
  | noMoreArgs : Derives .moreArgs []
  | moreArgs {u v : List Token} :
      Derives .expr u → Derives .moreArgs v → Derives .moreArgs (.comma :: (u ++ v))

namespace Derives

/-! ## Expressions -/

theorem sign {op : Operator} {u : List Token} (isSign : op = .bang ∨ op = .minus)
    (derived : Derives .expr u) : Derives .expr (op.token :: u) := by
  generalize same : Nonterminal.expr = n at derived
  induction derived with
  | operand derived _ => exact .operand (.prefixOp isSign derived)
  | infixOp infixed _ right ihLeft _ => exact .infixOp infixed (ihLeft same) right
  | _ => cases same

/-- Arguments go to the last operand. -/
theorem apply_unary {u v : List Token} (derived : Derives .unary u) (args : Derives .args v) :
    Derives .unary (u ++ v) := by
  generalize same : Nonterminal.unary = n at derived
  induction derived with
  | prefixOp isSign _ ih => exact .prefixOp isSign (ih same)
  | unsigned derived _ => exact .unsigned (.call derived args)
  | _ => cases same

theorem apply {u v : List Token} (derived : Derives .expr u) (args : Derives .args v) :
    Derives .expr (u ++ v) := by
  cases derived with
  | operand derived => exact .operand (derived.apply_unary args)
  | infixOp infixed left right =>
    have longer := Derives.infixOp infixed left (right.apply_unary args)
    rwa [← List.cons_append, ← List.append_assoc] at longer

theorem join {op : Operator} {u v : List Token} (infixed : op ≠ .bang) (left : Derives .expr u)
    (derived : Derives .expr v) : Derives .expr (u ++ op.token :: v) := by
  generalize same : Nonterminal.expr = n at derived
  induction derived with
  | operand right _ => exact .infixOp infixed left right
  | infixOp infixed' _ last ih _ =>
    have longer := Derives.infixOp infixed' (ih same) last
    rwa [List.append_assoc, List.cons_append] at longer
  | _ => cases same

end Derives

end TreeWalk
