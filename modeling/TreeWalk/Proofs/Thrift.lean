import TreeWalk.Parser
import TreeWalk.Proofs.Progress
import TreeWalk.Proofs.Resync

/-!
# Reading yields no more than it takes

Every statement of a program and every diagnostic is paid for by a token that is not the end of the
text, and no token pays twice.  What a rule has read and not yet handed on is its budget: it may
spend that and the tokens behind its first one, and a failure one more, which is the token the
statement around it begins with.

Results:
1. one lemma for each way to build a rule that keeps to a budget (`Rule.Spends.bind` and so on);
2. every rule keeps to its budget: one lemma for each rule, collected by an induction on the bound
   (`expression_spends`);
3. reading ends, and the diagnostics and the statements of what is read are together no more than
   the tokens (`reading_ends_within_tokens`).
-/

namespace TreeWalk

open Grammar

/-! ## Statements of a tree -/

mutual

/-- The number of statements inside an expression, at every depth. -/
def Expr.stmtCount : Expr → Nat
  | .ident _ | .int _ | .str _ | .bool _ => 0
  | .prefixOp _ right => right.stmtCount
  | .infixOp left _ right => left.stmtCount + right.stmtCount
  | .ifElse cond yes none => cond.stmtCount + yes.stmtCount
  | .ifElse cond yes (some no) => cond.stmtCount + yes.stmtCount + no.stmtCount
  | .fn _ body => body.stmtCount
  | .call callee args => callee.stmtCount + Expr.stmtCounts args

/-- The number of statements inside expressions. -/
def Expr.stmtCounts : List Expr → Nat
  | [] => 0
  | e :: es => e.stmtCount + Expr.stmtCounts es

/-- The number of statements in a statement, with the statement itself. -/
def Stmt.stmtCount : Stmt → Nat
  | .bind _ _ value | .ret _ value | .expr _ value => value.stmtCount + 1

/-- The number of statements in a list of them, at every depth. -/
def Stmt.stmtCounts : List Stmt → Nat
  | [] => 0
  | s :: ss => s.stmtCount + Stmt.stmtCounts ss

/-- The number of statements in a block, at every depth. -/
def Block.stmtCount : Block → Nat
  | .mk _ statements => Stmt.stmtCounts statements

end

/-- The number of statements of a program, at every depth. -/
def Program.stmtCount (program : Program) : Nat :=
  Stmt.stmtCounts program.statements

theorem Stmt.stmtCounts_append (ss ss' : List Stmt) :
    Stmt.stmtCounts (ss ++ ss') = Stmt.stmtCounts ss + Stmt.stmtCounts ss' := by
  induction ss with
  | nil => exact (Nat.zero_add _).symm
  | cons s ss ih => rw [List.cons_append, stmtCounts, ih, stmtCounts, Nat.add_assoc]

/-! ## Budgets -/

/-- The number of diagnostics among the notes. -/
def reports (notes : List Note) : Nat :=
  (notes.filterMap Note.diagnostic?).length

theorem reports_append (notes notes' : List Note) :
    reports (notes ++ notes') = reports notes + reports notes' := by
  rw [reports, List.filterMap_append, List.length_append, reports, reports]

/-- No more than the limit has gone on diagnostics, on the weight of the result, and on the tokens
that are left behind the last one.  A failure has had one token more to spend. -/
def Outcome.Spent {α : Type} (limit : Nat) (weight : α → Nat) : Outcome α → Prop
  | ⟨some a, rest, notes, _⟩ => reports notes + weight a + proper rest.tail ≤ limit
  | ⟨none, rest, notes, _⟩ => reports notes + proper rest.tail ≤ limit + 1

namespace Rule

variable {α β : Type}

/-- The rule spends no more than its budget and the tokens behind its first one. -/
def Spends (rule : Rule α) (budget : Nat) (weight : α → Nat) : Prop :=
  ∀ tracing level tokens, (rule tracing level tokens).Spent (budget + proper tokens.tail) weight

namespace Spends

variable {rule : Rule α} {next : α → Rule β} {budget : Nat} {mid : α → Nat} {weight : β → Nat}

/-- A rule that notes nothing and does not go back saves what it is not paid for. -/
theorem silent {tokens rest : List Token} {b : β} (level : Nat) (within : rest <:+ tokens)
    (paid : weight b ≤ budget) :
    (⟨some b, rest, [], level⟩ : Outcome β).Spent (budget + proper tokens.tail) weight := by
  have fewer := proper_le (suffix_tail within)
  show 0 + weight b + proper rest.tail ≤ budget + proper tokens.tail
  omega

theorem pure {b : β} (paid : weight b ≤ budget) : Spends (Pure.pure b) budget weight :=
  fun _ level _ => silent level List.suffix_rfl paid

theorem fail (diagnostic : Diagnostic) : Spends (Rule.fail diagnostic) budget weight := by
  intro tracing level tokens
  show 1 + proper tokens.tail ≤ budget + proper tokens.tail + 1
  omega

theorem current : Spends Rule.current budget fun _ => budget :=
  fun _ level _ => silent level List.suffix_rfl (Nat.le_refl _)

theorem peek : Spends Rule.peek budget fun _ => budget :=
  fun _ level _ => silent level List.suffix_rfl (Nat.le_refl _)

theorem advance : Spends Rule.advance budget fun _ => budget :=
  fun _ level tokens => silent level (List.tail_suffix tokens) (Nat.le_refl _)

theorem bind (first : Spends rule budget mid) (second : ∀ a, Spends (next a) (mid a) weight) :
    Spends (rule >>= next) budget weight := by
  intro tracing level tokens
  have spent := first tracing level tokens
  rcases run : rule tracing level tokens with ⟨_ | a, rest, notes, after⟩
  · rw [run] at spent
    rw [bind_of_none run]
    exact spent
  · rw [run] at spent
    rw [bind_of_some run]
    have spent' := second a tracing after rest
    generalize next a tracing after rest = outcome at spent' ⊢
    rcases outcome with ⟨_ | b, rest', notes', after'⟩
    all_goals
      simp only [Outcome.Spent, reports_append] at spent spent' ⊢
      omega

/-- What was saved before a rule is still there behind it. -/
theorem frame (spends : Spends rule budget mid) (saved : Nat) :
    Spends rule (saved + budget) fun a => saved + mid a := by
  intro tracing level tokens
  have spent := spends tracing level tokens
  generalize rule tracing level tokens = outcome at spent ⊢
  rcases outcome with ⟨_ | a, rest, notes, after⟩
  all_goals
    simp only [Outcome.Spent] at spent ⊢
    omega

theorem ite {c : Prop} [Decidable c] {rule' : Rule α} (yes : Spends rule budget mid)
    (no : Spends rule' budget mid) : Spends (if c then rule else rule') budget mid := by
  split
  · exact yes
  · exact no

theorem expect (kind : TokenKind) : Spends (Rule.expect kind) budget fun _ => budget :=
  peek.bind fun _ => ite advance (fail _)

theorem skip (kind : TokenKind) : Spends (Rule.skip kind) budget fun _ => budget :=
  peek.bind fun _ => ite advance (pure (Nat.le_refl _))

theorem traced (name : RuleName) (spends : Spends rule budget mid) :
    Spends (Rule.traced name rule) budget mid := by
  intro tracing level tokens
  cases tracing with
  | false => exact spends false level tokens
  | true =>
    have spent := spends true (level + 1) tokens
    rw [traced_true]
    generalize rule true (level + 1) tokens = outcome at spent ⊢
    rcases outcome with ⟨_ | a, rest, notes, after⟩
    all_goals
      have framed : reports (.trace (.enter level name) ::
          (notes ++ [.trace (.leave (indent after) name)])) = reports notes :=
        reports_append notes _
      simp only [Outcome.Spent, framed] at spent ⊢
      exact spent

end Spends

end Rule

open Rule

/-! ## Lists -/

theorem name_spends (budget : Nat) : Spends name budget fun _ => budget :=
  (Spends.expect _).bind fun _ => Spends.current.bind fun _ => .pure (Nat.le_refl _)

theorem moreParams_spends (steps : Nat) : Spends (moreParams steps) 0 fun _ => 0 := by
  induction steps with
  | zero => exact .pure (Nat.le_refl _)
  | succ steps ih =>
    refine Spends.peek.bind fun next => .ite ?_ (.pure (Nat.le_refl _))
    refine Spends.advance.bind fun _ => (name_spends 0).bind fun param => ?_
    exact ih.bind fun params => .pure (Nat.le_refl _)

theorem params_spends (bound : Nat) : Spends (params bound) 0 fun _ => 0 := by
  refine Spends.peek.bind fun next => .ite ?_ ?_
  · exact Spends.advance.bind fun _ => .pure (Nat.le_refl _)
  · refine (name_spends 0).bind fun param => (moreParams_spends bound).bind fun more => ?_
    exact (Spends.expect _).bind fun _ => .pure (Nat.le_refl _)

section

variable {expr : Precedence → Rule Expr}
variable (spends : ∀ context, Spends (expr context) 0 Expr.stmtCount)

include spends

theorem moreArgs_spends (steps : Nat) : Spends (moreArgs expr steps) 0 Expr.stmtCounts := by
  induction steps with
  | zero => exact .pure (Nat.le_refl _)
  | succ steps ih =>
    refine Spends.peek.bind fun next => .ite ?_ (.pure (Nat.le_refl _))
    refine Spends.advance.bind fun _ => Spends.advance.bind fun _ => ?_
    refine (spends .lowest).bind fun arg => (ih.frame arg.stmtCount).bind fun args => ?_
    exact .pure (Nat.le_refl _)

theorem args_spends (bound : Nat) : Spends (args expr bound) 0 Expr.stmtCounts := by
  refine Spends.peek.bind fun next => .ite ?_ ?_
  · exact Spends.advance.bind fun _ => .pure (Nat.le_refl _)
  · refine Spends.advance.bind fun _ => (spends .lowest).bind fun arg => ?_
    refine ((moreArgs_spends spends bound).frame arg.stmtCount).bind fun more => ?_
    exact (Spends.expect _).bind fun _ => .pure (Nat.le_refl _)

/-! ## Statements -/

/-- The weight of a statement that is still being read: the token it begins with pays for it. -/
def Stmt.inner (s : Stmt) : Nat :=
  s.stmtCount - 1

theorem letStmt_spends : Spends (letStmt expr) 0 Stmt.inner := by
  refine Spends.current.bind fun token => (name_spends 0).bind fun bound => ?_
  refine (Spends.expect _).bind fun _ => Spends.advance.bind fun _ => ?_
  refine (spends .lowest).bind fun value => (Spends.skip _).bind fun _ => ?_
  exact .pure (Nat.le_refl _)

theorem returnStmt_spends : Spends (returnStmt expr) 0 Stmt.inner := by
  refine Spends.current.bind fun token => Spends.advance.bind fun _ => ?_
  refine (spends .lowest).bind fun value => (Spends.skip _).bind fun _ => ?_
  exact .pure (Nat.le_refl _)

theorem exprStmt_spends : Spends (exprStmt expr) 0 Stmt.inner := by
  refine Spends.traced _ (Spends.current.bind fun token => ?_)
  refine (spends .lowest).bind fun value => (Spends.skip _).bind fun _ => ?_
  exact .pure (Nat.le_refl _)

theorem statement_spends : Spends (statement expr) 0 Stmt.inner := by
  refine Spends.current.bind fun first => ?_
  split
  · exact letStmt_spends spends
  · exact returnStmt_spends spends
  · exact exprStmt_spends spends

/-- The first token of a statement pays for the statement, or for the diagnostic of its failure. -/
theorem attempt_spends {tracing : Bool} {level after : Nat} {tokens rest : List Token}
    {read : Option Stmt}
    {notes : List Note} (there : tokens.headD .eof ≠ .eof)
    (run : attempt (statement expr) tracing level tokens = ⟨some read, rest, notes, after⟩) :
    reports notes + Stmt.stmtCounts read.toList + proper rest.tail ≤ proper tokens := by
  have paid := proper_of_head there
  have spent := statement_spends spends tracing level tokens
  rw [attempt] at run
  rcases inside : statement expr tracing level tokens with ⟨_ | s, rest', notes', after'⟩
  all_goals
    rw [inside] at run spent
    cases run
  · have kept : reports (notes' ++ [.dropped]) = reports notes' := reports_append notes' _
    rw [kept]
    show reports notes' + 0 + proper rest'.tail ≤ proper tokens
    simp only [Outcome.Spent] at spent
    omega
  · show reports notes' + (s.stmtCount + 0) + proper rest'.tail ≤ proper tokens
    simp only [Outcome.Spent, Stmt.inner] at spent
    omega

theorem statements_spend (ends : List TokenKind) {steps : Nat} {tracing : Bool} {level after : Nat}
    {tokens rest : List Token} {ss : List Stmt} {notes : List Note}
    (run : statements expr ends steps tracing level tokens = ⟨some ss, rest, notes, after⟩) :
    reports notes + Stmt.stmtCounts ss + proper rest ≤ proper tokens := by
  -- Each statement is paid for by the tokens from its first to its last one, and the next statement
  -- begins behind that, so the induction is on the number of statements that are still read.
  induction steps generalizing level tokens ss rest notes with
  | zero =>
    cases run
    exact Nat.le_of_eq (Nat.zero_add _)
  | succ steps ih =>
    by_cases ended : (tokens.headD .eof).kind ∈ TokenKind.eof :: ends
    · rw [statements, current_bind, if_pos ended] at run
      cases run
      exact Nat.le_of_eq (Nat.zero_add _)
    · have there := ne_eof_of_not_mem ended
      obtain ⟨read, left, notes₁, after₁, run₁⟩ :=
        attempt_some (statement expr) tracing level tokens
      obtain ⟨more, rest₂, notes₂, after₂, run₂⟩ :=
        statements_some expr ends steps tracing after₁ left.tail
      rw [statements_cons ended run₁ run₂] at run
      cases run
      have spent := attempt_spends spends there run₁
      have spent' := ih run₂
      rw [reports_append, Stmt.stmtCounts_append]
      omega

theorem block_spends (bound : Nat) : Spends (block expr bound) 0 Block.stmtCount := by
  have inside :
      Spends (advance >>= fun _ => statements expr [.rbrace] bound) 0 Stmt.stmtCounts := by
    intro tracing level tokens
    obtain ⟨ss, rest, notes, after, run⟩ :=
      statements_some expr [.rbrace] bound tracing level tokens.tail
    have spent := statements_spend spends _ run
    have fewer := proper_le (List.tail_suffix rest)
    rw [advance_bind, run]
    show reports notes + Stmt.stmtCounts ss + proper rest.tail ≤ 0 + proper tokens.tail
    omega
  refine Spends.current.bind fun token => ?_
  have both : Spends ((advance >>= fun _ => statements expr [.rbrace] bound) >>= fun ss =>
      Pure.pure (Block.mk token ss)) 0 Block.stmtCount :=
    inside.bind fun ss => .pure (Nat.le_refl _)
  rwa [bind_assoc] at both

/-! ## Expressions -/

theorem prefixExpr_spends (op : Operator) : Spends (prefixExpr expr op) 0 Expr.stmtCount := by
  refine Spends.traced _ (Spends.advance.bind fun _ => (spends .prefixed).bind fun right => ?_)
  exact .pure (Nat.le_refl _)

theorem grouped_spends : Spends (grouped expr) 0 Expr.stmtCount := by
  refine Spends.advance.bind fun _ => (spends .lowest).bind fun inner => ?_
  exact (Spends.expect _).bind fun _ => .pure (Nat.le_refl _)

/-- The weight of what follows `else`. -/
def alternativeCount (no : Option Block) : Nat :=
  no.elim 0 Block.stmtCount

theorem alternative_spends (bound : Nat) :
    Spends (alternative expr bound) 0 alternativeCount := by
  refine Spends.peek.bind fun next => .ite ?_ (.pure (Nat.le_refl _))
  refine Spends.advance.bind fun _ => (Spends.expect _).bind fun _ => ?_
  exact (block_spends spends bound).bind fun no => .pure (Nat.le_refl _)

theorem conditional_spends (bound : Nat) :
    Spends (conditional expr bound) 0 Expr.stmtCount := by
  refine (Spends.expect _).bind fun _ => Spends.advance.bind fun _ => ?_
  refine (spends .lowest).bind fun cond => (Spends.expect _).bind fun _ => ?_
  refine (Spends.expect _).bind fun _ => ?_
  refine ((block_spends spends bound).frame cond.stmtCount).bind fun yes => ?_
  refine ((alternative_spends spends bound).frame _).bind fun no => .pure ?_
  cases no <;> exact Nat.le_refl _

theorem function_spends (bound : Nat) : Spends (function expr bound) 0 Expr.stmtCount := by
  refine (Spends.expect _).bind fun _ => (params_spends bound).bind fun parameters => ?_
  refine (Spends.expect _).bind fun _ => (block_spends spends bound).bind fun body => ?_
  exact .pure (Nat.le_refl _)

omit spends in
theorem integer_spends (text : String) : Spends (integer text) 0 Expr.stmtCount := by
  refine Spends.traced _ ?_
  split
  · exact .pure (Nat.le_refl _)
  · exact .fail _

theorem operand_spends (bound : Nat) : Spends (operand expr bound) 0 Expr.stmtCount := by
  refine Spends.current.bind fun first => ?_
  cases first with
  | ident _ | str _ | trueWord | falseWord => exact .pure (Nat.le_refl _)
  | int text => exact integer_spends text
  | bang => exact prefixExpr_spends spends .bang
  | minus => exact prefixExpr_spends spends .minus
  | lparen => exact grouped_spends spends
  | ifWord => exact conditional_spends spends bound
  | fnWord => exact function_spends spends bound
  | _ => exact .fail _

theorem extend_spends (bound : Nat) (left : Expr) (next : Token) :
    Spends (extend expr bound left next) left.stmtCount Expr.stmtCount := by
  refine Spends.advance.bind fun _ => ?_
  cases Operator.ofToken? next with
  | some op =>
    refine Spends.traced _ (Spends.advance.bind fun _ => ?_)
    exact ((spends _).frame left.stmtCount).bind fun right => .pure (Nat.le_refl _)
  | none =>
    refine ((args_spends spends bound).frame left.stmtCount).bind fun arguments => ?_
    exact .pure (Nat.le_refl _)

theorem extensions_spend (context : Precedence) (bound steps : Nat) (left : Expr) :
    Spends (extensions expr context bound steps left) left.stmtCount Expr.stmtCount := by
  induction steps generalizing left with
  | zero => exact .pure (Nat.le_refl _)
  | succ steps ih =>
    refine Spends.peek.bind fun next => .ite ?_ (.pure (Nat.le_refl _))
    exact (extend_spends spends bound left next).bind fun longer => ih longer

end

theorem expression_spends (bound : Nat) (context : Precedence) :
    Spends (expression bound context) 0 Expr.stmtCount := by
  induction bound generalizing context with
  | zero => exact Spends.traced _ (.fail _)
  | succ bound ih =>
    refine Spends.traced _ ((operand_spends ih bound).bind fun left => ?_)
    exact extensions_spend ih context bound bound left

/-! ## Programs -/

theorem Parse.size_le_proper (tokens : List Token) (tracing : Bool) :
    (ofTokens tokens tracing).diagnostics.length + (ofTokens tokens tracing).program.stmtCount ≤
      proper tokens := by
  obtain ⟨ss, rest, notes, run⟩ := program_some tracing 0 tokens
  have parsed : ofTokens tokens tracing = ⟨⟨ss⟩, notes⟩ := ofTokens_of_program run
  have spent := statements_spend (expression_spends tokens.length) [] run
  rw [parsed]
  exact Nat.le_trans (Nat.le_add_right _ _) spent

/-- Reading ends on every list of tokens, the end of the text inside it or not: each way to go round
passes a token with every round and so is the only one that does what its rounds say, whatever bound
it is given beyond the number of tokens, and a program is always read.  The diagnostics and the
statements of the program, at every depth, are together no more than the tokens that are not the end
of the text. -/
theorem reading_ends_within_tokens :
    Ends expressionRound expression ∧
    Ends (fun _ => paramsRound) (fun bound _ => moreParams bound) ∧
    (∀ {expr : Precedence → Rule Expr}, (∀ context, (expr context).Forward) →
      Ends (fun _ => argsRound expr) (fun bound _ => moreArgs expr bound) ∧
      (∀ ends, Ends (fun _ => statementsRound expr ends) fun bound _ =>
        statements expr ends bound) ∧
      ∀ context bound, Ends (fun _ => extensionsRound expr context bound)
        (extensions expr context bound)) ∧
    (∀ bound context, (expression bound context).Forward) ∧
    (∀ {bound steps : Nat} {tokens : List Token}, tokens.length ≤ bound → tokens.length ≤ steps →
      ∀ tracing level, statements (expression bound) [] steps tracing level tokens =
        program tokens.length tracing level tokens) ∧
    (∀ tracing level tokens, (program tokens.length tracing level tokens).value.isSome) ∧
    ∀ (tokens : List Token) (tracing : Bool),
      (Parse.ofTokens tokens tracing).diagnostics.length +
        (Parse.ofTokens tokens tracing).program.stmtCount ≤ proper tokens := by
  refine ⟨expression_ends, moreParams_ends, fun forward => ⟨moreArgs_ends forward,
    statements_ends forward, extensions_ends forward⟩, expression_forward, statements_eq_program,
    fun tracing level tokens => ?_, Parse.size_le_proper⟩
  obtain ⟨ss, rest, notes, run⟩ := program_some tracing level tokens
  rw [run]
  rfl

/-- `fn() { x; let }`, and something behind the end of the text -/
def damagedBlock : List Token :=
  [.fnWord, .lparen, .rparen, .lbrace, .ident "x", .semicolon, .letWord, .rbrace, .eof, .plus]

/-- Two statements and one diagnostic come of these tokens. -/
theorem reading_ends_within_tokens_of_damage :
    (Parse.ofTokens damagedBlock false).diagnostics = [.unexpected .ident .rbrace] ∧
    (Parse.ofTokens damagedBlock false).program.stmtCount = 2 ∧
    1 + 2 ≤ proper damagedBlock ∧
    (∀ context, (expression 2 context).Forward) ∧
    Ends (fun _ => argsRound (expression 2)) (fun bound _ => moreArgs (expression 2) bound) ∧
    statements (expression 12) [] 11 true 0 damagedBlock = program 10 true 0 damagedBlock := by
  obtain ⟨_, _, loops, forward, bounds, _, size⟩ := reading_ends_within_tokens
  have diagnostics : (Parse.ofTokens damagedBlock false).diagnostics =
      [.unexpected .ident .rbrace] := rfl
  have statements : (Parse.ofTokens damagedBlock false).program.stmtCount = 2 := rfl
  refine ⟨diagnostics, statements, ?_, forward 2, (loops (forward 2)).1,
    bounds (by decide) (by decide) true 0⟩
  have both := size damagedBlock false
  rwa [diagnostics, statements] at both

end TreeWalk
