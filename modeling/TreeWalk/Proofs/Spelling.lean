import TreeWalk.Decimal
import TreeWalk.Proofs.Bare

/-!
# Spellings

How a tree may be written as tokens.  Operators bind with a strength: a comparison for equality
weakest, then an order, then a sum, then a product, then a prefix operator.  An operand that binds
too weakly for its place has to stand in parentheses; any expression may.  A statement may go
without its semicolon unless the next one begins with a token that would continue it.

Results:
1. what an expression or a statement is spelled with begins with a token that only an expression or
   a statement begins with (`Spells.exists_head_of_expr`, `Spells.exists_head_of_stmt`);
2. operators of one strength, one after another, spell the tree that associates to the left
   (`Spells.chain`), and of two operators the stronger one takes the operand between them
   (`Spells.pair`).
-/

namespace TreeWalk

/-! ## Strength -/

/-- How strongly an infix operator binds its operands. -/
def Operator.strength : Operator → Nat
  | .eq | .notEq => 1
  | .lt | .gt => 2
  | .plus | .minus => 3
  | .asterisk | .slash => 4
  | .bang => 0

/-- Prefix operators bind more strongly than infix operators. -/
def prefixStrength : Nat := 5

/-- The strength of what no operator can take apart: names, literals, conditionals, functions, calls
and whatever stands in parentheses. -/
def fullStrength : Nat := 6

/-! ## Spellings -/

/-- Names after the first one of a list, each with a comma before it. -/
def moreNames (names : List String) : List Token :=
  names.flatMap fun name => [.comma, .ident name]

/-- Names with commas between them. -/
def nameList : List String → List Token
  | [] => []
  | name :: names => .ident name :: moreNames names

/-- What tokens may spell. -/
inductive Phrase where
  /-- An expression, with the strength of what is outermost in the spelling. -/
  | expr (strength : Nat) (e : Expr)
  /-- Arguments after the first one of a call. -/
  | moreArgs (es : List Expr)
  /-- A statement, its semicolon left aside. -/
  | stmt (s : Stmt)
  | stmts (ss : List Stmt)
  | block (b : Block)

/-- `Spells phrase tokens`: the tokens spell the phrase.

* `group`: parentheses may stand around any expression.
* `prefixOp`, `infixOp`: an operand binds at least as strongly as the operator, and the right
  operand of an infix operator more strongly.
* `callNone`, `call`: what is called binds more strongly than any operator.
* `expr`: the token that an expression statement keeps is not part of its spelling.
* `ended`, `juxtaposed`: a statement ends in a semicolon, or the next one, if there is one, begins
  with a token that cannot continue an expression. -/
inductive Spells : Phrase → List Token → Prop
  | ident (name : String) : Spells (.expr fullStrength (.ident (.ofName name))) [.ident name]
  | int {text : String} {value : Int64} :
      Decimal.int64? text = some value → Spells (.expr fullStrength (.int value)) [.int text]
  | str (text : String) : Spells (.expr fullStrength (.str text)) [.str text]
  | trueWord : Spells (.expr fullStrength (.bool true)) [.trueWord]
  | falseWord : Spells (.expr fullStrength (.bool false)) [.falseWord]
  | group {strength : Nat} {e : Expr} {inner : List Token} :
      Spells (.expr strength e) inner →
      Spells (.expr fullStrength e) (.lparen :: (inner ++ [.rparen]))
  | prefixOp {op : Operator} {strength : Nat} {right : Expr} {operand : List Token} :
      op = .bang ∨ op = .minus → prefixStrength ≤ strength →
      Spells (.expr strength right) operand →
      Spells (.expr prefixStrength (.prefixOp op right)) (op.token :: operand)
  | infixOp {op : Operator} {m n : Nat} {left right : Expr} {before behind : List Token} :
      op ≠ .bang → op.strength ≤ m → op.strength < n →
      Spells (.expr m left) before → Spells (.expr n right) behind →
      Spells (.expr op.strength (.infixOp left op right)) (before ++ op.token :: behind)
  | ifThen {strength : Nat} {cond : Expr} {yes : Block} {test consequence : List Token} :
      Spells (.expr strength cond) test → Spells (.block yes) consequence →
      Spells (.expr fullStrength (.ifElse cond yes none))
        (.ifWord :: .lparen :: (test ++ .rparen :: consequence))
  | ifElse {strength : Nat} {cond : Expr} {yes no : Block}
      {test consequence alternative : List Token} :
      Spells (.expr strength cond) test → Spells (.block yes) consequence →
      Spells (.block no) alternative →
      Spells (.expr fullStrength (.ifElse cond yes (some no)))
        (.ifWord :: .lparen :: (test ++ .rparen :: (consequence ++ .elseWord :: alternative)))
  | fn (names : List String) {body : Block} {inner : List Token} :
      Spells (.block body) inner →
      Spells (.expr fullStrength (.fn (names.map .ofName) body))
        (.fnWord :: .lparen :: (nameList names ++ .rparen :: inner))
  | callNone {callee : Expr} {target : List Token} :
      Spells (.expr fullStrength callee) target →
      Spells (.expr fullStrength (.call callee [])) (target ++ [.lparen, .rparen])
  | call {strength : Nat} {callee arg : Expr} {args : List Expr}
      {target first more : List Token} :
      Spells (.expr fullStrength callee) target → Spells (.expr strength arg) first →
      Spells (.moreArgs args) more →
      Spells (.expr fullStrength (.call callee (arg :: args)))
        (target ++ .lparen :: (first ++ (more ++ [.rparen])))
  | noMoreArgs : Spells (.moreArgs []) []
  | moreArgs {strength : Nat} {arg : Expr} {args : List Expr} {first more : List Token} :
      Spells (.expr strength arg) first → Spells (.moreArgs args) more →
      Spells (.moreArgs (arg :: args)) (.comma :: (first ++ more))
  | bind (name : String) {strength : Nat} {value : Expr} {tokens : List Token} :
      Spells (.expr strength value) tokens →
      Spells (.stmt (.bind .letWord (.ofName name) value))
        (.letWord :: .ident name :: .assign :: tokens)
  | ret {strength : Nat} {value : Expr} {tokens : List Token} :
      Spells (.expr strength value) tokens →
      Spells (.stmt (.ret .returnWord value)) (.returnWord :: tokens)
  | expr (kept : Token) {strength : Nat} {value : Expr} {tokens : List Token} :
      Spells (.expr strength value) tokens → Spells (.stmt (.expr kept value)) tokens
  | noStmts : Spells (.stmts []) []
  | ended {s : Stmt} {ss : List Stmt} {first rest : List Token} :
      Spells (.stmt s) first → Spells (.stmts ss) rest →
      Spells (.stmts (s :: ss)) (first ++ .semicolon :: rest)
  | juxtaposed {s : Stmt} {ss : List Stmt} {first rest : List Token} :
      Spells (.stmt s) first → Spells (.stmts ss) rest →
      rest.head? ≠ some .lparen → rest.head? ≠ some .minus →
      Spells (.stmts (s :: ss)) (first ++ rest)
  | block {ss : List Stmt} {inner : List Token} :
      Spells (.stmts ss) inner →
      Spells (.block (.mk .lbrace ss)) (.lbrace :: (inner ++ [.rbrace]))

/-! ## First tokens -/

/-- The kinds of token that an expression begins with. -/
def exprHeads : List TokenKind :=
  [.ident, .int, .str, .trueWord, .falseWord, .lparen, .bang, .minus, .ifWord, .fnWord]

/-- The kinds of token that a statement begins with. -/
def stmtHeads : List TokenKind :=
  .letWord :: .returnWord :: exprHeads

namespace Spells

theorem exists_head_of_expr {strength : Nat} {e : Expr} {tokens : List Token} :
    Spells (.expr strength e) tokens →
      ∃ first rest, tokens = first :: rest ∧ first.kind ∈ exprHeads
  | .ident _ | .int _ | .str _ | .trueWord | .falseWord | .group _ | .ifThen .. | .ifElse ..
  | .fn .. => ⟨_, _, rfl, by simp [Token.kind, exprHeads]⟩
  | .prefixOp sign _ _ => by
    refine ⟨_, _, rfl, ?_⟩
    rcases sign with rfl | rfl <;> decide
  | .infixOp _ _ _ left _ => by
    obtain ⟨first, rest, rfl, head⟩ := left.exists_head_of_expr
    exact ⟨first, _, rfl, head⟩
  | .callNone target => by
    obtain ⟨first, rest, rfl, head⟩ := target.exists_head_of_expr
    exact ⟨first, _, rfl, head⟩
  | .call target _ _ => by
    obtain ⟨first, rest, rfl, head⟩ := target.exists_head_of_expr
    exact ⟨first, _, rfl, head⟩

theorem exists_head_of_stmt {s : Stmt} {tokens : List Token} (spelled : Spells (.stmt s) tokens) :
    ∃ first rest, tokens = first :: rest ∧ first.kind ∈ stmtHeads := by
  cases spelled with
  | bind _ _ => exact ⟨_, _, rfl, by decide⟩
  | ret _ => exact ⟨_, _, rfl, by decide⟩
  | expr _ value =>
    obtain ⟨first, rest, rfl, head⟩ := value.exists_head_of_expr
    exact ⟨first, rest, rfl, by simp [stmtHeads, head]⟩

theorem exists_head_of_stmts {ss : List Stmt} {tokens : List Token}
    (spelled : Spells (.stmts ss) tokens) :
    tokens = [] ∨ ∃ first rest, tokens = first :: rest ∧ first.kind ∈ stmtHeads := by
  cases spelled with
  | noStmts => exact .inl rfl
  | ended s _ =>
    obtain ⟨first, rest, rfl, head⟩ := s.exists_head_of_stmt
    exact .inr ⟨first, _, rfl, head⟩
  | juxtaposed s _ _ _ =>
    obtain ⟨first, rest, rfl, head⟩ := s.exists_head_of_stmt
    exact .inr ⟨first, _, rfl, head⟩

end Spells

/-! ## Chains -/

/-- Two infix operators between three operands: the operand in the middle goes to the stronger one,
and to the first one of equals. -/
def pairTree (a : Expr) (op : Operator) (b : Expr) (op' : Operator) (c : Expr) : Expr :=
  if op.strength < op'.strength then .infixOp a op (.infixOp b op' c)
  else .infixOp (.infixOp a op b) op' c

/-- An infix operator with its right operand and the spelling of that operand. -/
structure Link where
  op : Operator
  right : Expr
  behind : List Token

/-- The operators of a chain applied one after another, from the left. -/
def chainTree (first : Expr) (links : List Link) : Expr :=
  links.foldl (fun left link => .infixOp left link.op link.right) first

/-- The operands of a chain with the operators between them and without parentheses around any two
of them. -/
def chainTokens (first : List Token) (links : List Link) : List Token :=
  first ++ links.flatMap fun link => link.op.token :: link.behind

theorem Spells.chain {strength m : Nat} {first : Expr} {before : List Token} {links : List Link}
    (spelled : Spells (.expr m first) before) (enough : strength ≤ m)
    (all : ∀ link ∈ links, link.op ≠ .bang ∧ link.op.strength = strength ∧
      ∃ n, strength < n ∧ Spells (.expr n link.right) link.behind) :
    ∃ n, strength ≤ n ∧ Spells (.expr n (chainTree first links)) (chainTokens before links) := by
  induction links generalizing m first before with
  | nil =>
    refine ⟨m, enough, ?_⟩
    simpa [chainTree, chainTokens] using spelled
  | cons link links ih =>
    obtain ⟨infixed, same, n, tighter, right⟩ := all link (List.mem_cons_self ..)
    have joined := Spells.infixOp infixed (same ▸ enough) (same ▸ tighter) spelled right
    have longer := ih joined (Nat.le_of_eq same.symm) fun other member =>
      all other (List.mem_cons_of_mem _ member)
    simpa [chainTree, chainTokens] using longer

theorem Spells.pair {op op' : Operator} {k m n : Nat} {a b c : Expr} {s t u : List Token}
    (infixed : op ≠ .bang) (infixed' : op' ≠ .bang) (first : Spells (.expr k a) s)
    (second : Spells (.expr m b) t) (third : Spells (.expr n c) u) (left : op.strength ≤ k)
    (middle : op.strength < m) (middle' : op'.strength < m) (right : op'.strength < n) :
    ∃ strength, Spells (.expr strength (pairTree a op b op' c))
      (s ++ op.token :: (t ++ op'.token :: u)) := by
  unfold pairTree
  split
  · next stronger =>
    have inner := Spells.infixOp infixed' (Nat.le_of_lt middle') right second third
    exact ⟨_, .infixOp infixed left stronger first inner⟩
  · next notStronger =>
    have inner := Spells.infixOp infixed left middle first second
    have outer := Spells.infixOp infixed' (Nat.not_lt.mp notStronger) right inner third
    rw [List.append_assoc] at outer
    exact ⟨_, outer⟩

theorem Spells.single {strength : Nat} {e : Expr} {tokens : List Token} (kept : Token)
    (spelled : Spells (.expr strength e) tokens) : Spells (.stmts [.expr kept e]) tokens := by
  have alone := Spells.juxtaposed (.expr kept spelled) .noStmts nofun nofun
  rwa [List.append_nil] at alone

end TreeWalk
