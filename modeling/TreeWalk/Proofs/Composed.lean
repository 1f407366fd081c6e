import TreeWalk.Parser.Grammar

/-!
# How grammar rules are put together

Every grammar rule is put together from a few primitive ones and from the rule for nested
expressions.  What holds of the parts and passes from parts to wholes therefore holds of every rule,
and need not be followed through each of them again.

A rule consults the rule for nested expressions at a certain pace: it may do so at once, or only
when the cursor has left its first token.  The pace is why reading ends.

Results:
1. every grammar rule is composed, at the pace stated for it (one lemma for each rule, collected in
   `Grammatical.composed`);
2. a property that the primitive rules have, and that passes from the parts of a rule to the rule,
   is one of every grammar rule (`Grammatical.holds`).
-/

namespace TreeWalk

open Grammar

/-! ## Composition -/

/-- Where a rule stands when it first consults the rule for nested expressions, and when it has a
result. -/
inductive Pace where
  /-- Nested expressions may begin where the rule begins. -/
  | atOnce
  /-- Nested expressions begin behind the first token of the rule. -/
  | later
  /-- Nested expressions begin behind the first token, and the cursor has left it when there is a
  result. -/
  | onward

/-- The pace of one rule after another. -/
def Pace.andThen : Pace → Pace → Pace
  | atOnce, _ => atOnce
  | later, pace => pace
  | onward, _ => onward

/-- `Composed pace rule`: given a rule for nested expressions, `rule` is put together from that and
the primitive rules, and consults it at the given pace. -/
inductive Composed : Pace → {α : Type} → ((Precedence → Rule Expr) → Rule α) → Prop where
  | nested (context : Precedence) : Composed .atOnce fun expr => expr context
  | pure {α : Type} (a : α) : Composed .later fun _ => Pure.pure a
  | fail {α : Type} (diagnostic : Diagnostic) :
      Composed .onward fun _ => (Rule.fail diagnostic : Rule α)
  | current : Composed .later fun _ => Rule.current
  | peek : Composed .later fun _ => Rule.peek
  | advance : Composed .onward fun _ => Rule.advance
  | bind {α β : Type} {pace pace' : Pace} {rule : (Precedence → Rule Expr) → Rule α}
      {next : α → (Precedence → Rule Expr) → Rule β} (first : Composed pace rule)
      (second : ∀ a, Composed pace' (next a)) :
      Composed (pace.andThen pace') fun expr => rule expr >>= fun a => next a expr
  | traced {α : Type} {pace : Pace} {rule : (Precedence → Rule Expr) → Rule α} (name : RuleName)
      (composed : Composed pace rule) : Composed pace fun expr => Rule.traced name (rule expr)
  | attempt {α : Type} {rule : (Precedence → Rule Expr) → Rule α}
      (composed : Composed .atOnce rule) : Composed .atOnce fun expr => Rule.attempt (rule expr)
  | later {α : Type} {rule : (Precedence → Rule Expr) → Rule α}
      (composed : Composed .onward rule) : Composed .later rule
  | atOnce {α : Type} {rule : (Precedence → Rule Expr) → Rule α}
      (composed : Composed .later rule) : Composed .atOnce rule

namespace Composed

variable {α β : Type} {pace : Pace} {rule rule' : (Precedence → Rule Expr) → Rule α}
variable {next : α → (Precedence → Rule Expr) → Rule β}

/-- Behind a rule that moves on, everything is later. -/
theorem moving (first : Composed .onward rule) (second : ∀ a, Composed .atOnce (next a)) :
    Composed .onward fun expr => rule expr >>= fun a => next a expr :=
  .bind first second

/-- A rule that consults nothing at once leaves the pace to the next one. -/
theorem andThen (first : Composed .later rule) (second : ∀ a, Composed pace (next a)) :
    Composed pace fun expr => rule expr >>= fun a => next a expr :=
  .bind first second

/-- At once is the loosest of the paces. -/
theorem loose (composed : Composed pace rule) : Composed .atOnce rule :=
  match pace with
  | .atOnce => composed
  | .later => .atOnce composed
  | .onward => .atOnce (.later composed)

theorem among (first : Composed .atOnce rule) (second : ∀ a, Composed .atOnce (next a)) :
    Composed .atOnce fun expr => rule expr >>= fun a => next a expr :=
  .bind first second

theorem ite {c : Prop} [Decidable c] (yes : Composed pace rule) (no : Composed pace rule') :
    Composed pace fun expr => if c then rule expr else rule' expr := by
  by_cases holds : c
  · simpa only [if_pos holds] using yes
  · simpa only [if_neg holds] using no

theorem expect (kind : TokenKind) : Composed .onward fun _ => Rule.expect kind :=
  .andThen .peek fun _ => .ite .advance (.fail _)

theorem skip (kind : TokenKind) : Composed .atOnce fun _ => Rule.skip kind :=
  .andThen .peek fun _ => .ite (.loose .advance) (.loose (.pure ()))

end Composed

/-! ## Lists -/

theorem name_composed : Composed .onward fun _ => name :=
  .moving (.expect _) fun _ => .loose (.andThen .current fun _ => .pure _)

theorem moreParams_composed (steps : Nat) : Composed .atOnce fun _ => moreParams steps := by
  induction steps with
  | zero => exact .loose (.pure [])
  | succ steps ih =>
    refine .andThen .peek fun next => .ite ?_ (.loose (.pure []))
    refine .loose (.moving .advance fun _ => .loose (.moving name_composed fun param => ?_))
    exact .among ih fun params => .loose (.pure _)

theorem params_composed (bound : Nat) : Composed .onward fun _ => params bound := by
  refine .andThen .peek fun next => .ite ?_ ?_
  · exact .moving .advance fun _ => .loose (.pure [])
  · refine .moving name_composed fun param => .among (moreParams_composed bound) fun more => ?_
    exact .loose (.moving (.expect _) fun _ => .loose (.pure _))

theorem moreArgs_composed (steps : Nat) :
    Composed .atOnce fun expr => moreArgs expr steps := by
  induction steps with
  | zero => exact .loose (.pure [])
  | succ steps ih =>
    refine .andThen .peek fun next => .ite ?_ (.loose (.pure []))
    refine .loose (.moving .advance fun _ => .loose (.moving .advance fun _ => ?_))
    exact .among (.nested .lowest) fun arg => .among ih fun args => .loose (.pure _)

theorem args_composed (bound : Nat) : Composed .onward fun expr => args expr bound := by
  refine .andThen .peek fun next => .ite ?_ ?_
  · exact .moving .advance fun _ => .loose (.pure [])
  · refine .moving .advance fun _ => .among (.nested .lowest) fun arg => ?_
    refine .among (moreArgs_composed bound) fun more => ?_
    exact .loose (.moving (.expect _) fun _ => .loose (.pure _))

/-! ## Statements -/

theorem letStmt_composed : Composed .onward fun expr => letStmt expr := by
  refine .andThen .current fun token => .moving name_composed fun bound => ?_
  refine .loose (.moving (.expect _) fun _ => .loose (.moving .advance fun _ => ?_))
  exact .among (.nested .lowest) fun value => .among (.skip _) fun _ => .loose (.pure _)

theorem returnStmt_composed : Composed .onward fun expr => returnStmt expr := by
  refine .andThen .current fun token => .moving .advance fun _ => ?_
  exact .among (.nested .lowest) fun value => .among (.skip _) fun _ => .loose (.pure _)

theorem exprStmt_composed : Composed .atOnce fun expr => exprStmt expr := by
  refine .traced _ (.andThen .current fun token => ?_)
  exact .among (.nested .lowest) fun value => .among (.skip _) fun _ => .loose (.pure _)

theorem statement_composed : Composed .atOnce fun expr => statement expr := by
  refine .andThen .current fun first => ?_
  cases first.kind with
  | letWord => exact .loose letStmt_composed
  | returnWord => exact .loose returnStmt_composed
  | _ => exact exprStmt_composed

theorem statements_composed (ends : List TokenKind) (steps : Nat) :
    Composed .atOnce fun expr => statements expr ends steps := by
  induction steps with
  | zero => exact .loose (.pure [])
  | succ steps ih =>
    refine .andThen .current fun first => .ite (.loose (.pure [])) ?_
    refine .among (.attempt statement_composed) fun read => .loose (.moving .advance fun _ => ?_)
    exact .among ih fun more => .loose (.pure _)

theorem block_composed (bound : Nat) : Composed .onward fun expr => block expr bound := by
  refine .andThen .current fun token => .moving .advance fun _ => ?_
  exact .among (statements_composed _ bound) fun inside => .loose (.pure _)

/-! ## Expressions -/

theorem integer_composed (text : String) : Composed .later fun _ => integer text := by
  refine .traced _ ?_
  cases Decimal.int64? text with
  | none => exact .later (.fail _)
  | some value => exact .pure _

theorem prefixExpr_composed (op : Operator) : Composed .onward fun expr => prefixExpr expr op := by
  refine .traced _ (.moving .advance fun _ => ?_)
  exact .among (.nested .prefixed) fun right => .loose (.pure _)

theorem grouped_composed : Composed .onward fun expr => grouped expr := by
  refine .moving .advance fun _ => .among (.nested .lowest) fun inner => ?_
  exact .loose (.moving (.expect _) fun _ => .loose (.pure _))

theorem alternative_composed (bound : Nat) :
    Composed .later fun expr => alternative expr bound := by
  refine .andThen .peek fun next => .ite ?_ (.pure none)
  refine .later (.moving .advance fun _ => .loose (.moving (.expect _) fun _ => ?_))
  exact .among (.loose (block_composed bound)) fun no => .loose (.pure _)

theorem conditional_composed (bound : Nat) :
    Composed .onward fun expr => conditional expr bound := by
  refine .moving (.expect _) fun _ => .loose (.moving .advance fun _ => ?_)
  refine .among (.nested .lowest) fun cond => ?_
  refine .loose (.moving (.expect _) fun _ => .loose (.moving (.expect _) fun _ => ?_))
  refine .among (.loose (block_composed bound)) fun yes => ?_
  exact .among (.loose (alternative_composed bound)) fun no => .loose (.pure _)

theorem function_composed (bound : Nat) : Composed .onward fun expr => function expr bound := by
  refine .moving (.expect _) fun _ => .among (.loose (params_composed bound)) fun parameters => ?_
  refine .loose (.moving (.expect _) fun _ => ?_)
  exact .among (.loose (block_composed bound)) fun body => .loose (.pure _)

theorem operand_composed (bound : Nat) : Composed .later fun expr => operand expr bound := by
  refine .andThen .current fun first => ?_
  cases first with
  | ident _ | str _ | trueWord | falseWord => exact .pure _
  | int text => exact integer_composed text
  | bang => exact .later (prefixExpr_composed .bang)
  | minus => exact .later (prefixExpr_composed .minus)
  | lparen => exact .later grouped_composed
  | ifWord => exact .later (conditional_composed bound)
  | fnWord => exact .later (function_composed bound)
  | _ => exact .later (.fail _)

theorem infixExpr_composed (left : Expr) (op : Operator) (precedence : Precedence) :
    Composed .onward fun expr => infixExpr expr left op precedence := by
  refine .traced _ (.moving .advance fun _ => ?_)
  exact .among (.nested precedence) fun right => .loose (.pure _)

theorem extend_composed (bound : Nat) (left : Expr) (next : Token) :
    Composed .onward fun expr => extend expr bound left next := by
  refine .moving .advance fun _ => ?_
  cases Operator.ofToken? next with
  | some op => exact .loose (infixExpr_composed left op _)
  | none => exact .among (.loose (args_composed bound)) fun arguments => .loose (.pure _)

theorem extensions_composed (context : Precedence) (bound steps : Nat) (left : Expr) :
    Composed .later fun expr => extensions expr context bound steps left := by
  induction steps generalizing left with
  | zero => exact .pure left
  | succ steps ih =>
    refine .andThen .peek fun next => .ite ?_ (.pure left)
    exact .later (.moving (extend_composed bound left next) fun longer => .loose (ih longer))

/-! ## All rules -/

/-- The rules of the grammar, given the rule for nested expressions. -/
inductive Grammatical : {α : Type} → ((Precedence → Rule Expr) → Rule α) → Prop where
  | name : Grammatical fun _ => name
  | integer (text : String) : Grammatical fun _ => integer text
  | moreParams (steps : Nat) : Grammatical fun _ => moreParams steps
  | params (bound : Nat) : Grammatical fun _ => params bound
  | moreArgs (steps : Nat) : Grammatical fun expr => moreArgs expr steps
  | args (bound : Nat) : Grammatical fun expr => args expr bound
  | letStmt : Grammatical fun expr => letStmt expr
  | returnStmt : Grammatical fun expr => returnStmt expr
  | exprStmt : Grammatical fun expr => exprStmt expr
  | statement : Grammatical fun expr => statement expr
  | statements (ends : List TokenKind) (steps : Nat) :
      Grammatical fun expr => statements expr ends steps
  | block (bound : Nat) : Grammatical fun expr => block expr bound
  | prefixExpr (op : Operator) : Grammatical fun expr => prefixExpr expr op
  | grouped : Grammatical fun expr => grouped expr
  | alternative (bound : Nat) : Grammatical fun expr => alternative expr bound
  | conditional (bound : Nat) : Grammatical fun expr => conditional expr bound
  | function (bound : Nat) : Grammatical fun expr => function expr bound
  | operand (bound : Nat) : Grammatical fun expr => operand expr bound
  | infixExpr (left : Expr) (op : Operator) (precedence : Precedence) :
      Grammatical fun expr => infixExpr expr left op precedence
  | extend (bound : Nat) (left : Expr) (next : Token) :
      Grammatical fun expr => extend expr bound left next
  | extensions (context : Precedence) (bound steps : Nat) (left : Expr) :
      Grammatical fun expr => extensions expr context bound steps left
  | expression (context : Precedence) : Grammatical fun expr => expr context

theorem Grammatical.composed {α : Type} {rule : (Precedence → Rule Expr) → Rule α}
    (grammatical : Grammatical rule) : Composed .atOnce rule := by
  cases grammatical with
  | name => exact .loose name_composed
  | integer text => exact .loose (integer_composed text)
  | moreParams steps => exact moreParams_composed steps
  | params bound => exact .loose (params_composed bound)
  | moreArgs steps => exact moreArgs_composed steps
  | args bound => exact .loose (args_composed bound)
  | letStmt => exact .loose letStmt_composed
  | returnStmt => exact .loose returnStmt_composed
  | exprStmt => exact exprStmt_composed
  | statement => exact statement_composed
  | statements ends steps => exact statements_composed ends steps
  | block bound => exact .loose (block_composed bound)
  | prefixExpr op => exact .loose (prefixExpr_composed op)
  | grouped => exact .loose grouped_composed
  | alternative bound => exact .loose (alternative_composed bound)
  | conditional bound => exact .loose (conditional_composed bound)
  | function bound => exact .loose (function_composed bound)
  | operand bound => exact .loose (operand_composed bound)
  | infixExpr left op precedence => exact .loose (infixExpr_composed left op precedence)
  | extend bound left next => exact .loose (extend_composed bound left next)
  | extensions context bound steps left =>
    exact .loose (extensions_composed context bound steps left)
  | expression context => exact .nested context

/-! ## What all rules have in common -/

/-- The primitive rules have a property, and it passes from the parts of a rule to the rule. -/
structure Compositional (Holds : (α : Type) → Rule α → Prop) : Prop where
  pure : ∀ {α : Type} (a : α), Holds α (Pure.pure a)
  fail : ∀ {α : Type} (diagnostic : Diagnostic), Holds α (Rule.fail diagnostic)
  current : Holds Token Rule.current
  peek : Holds Token Rule.peek
  advance : Holds Unit Rule.advance
  bind : ∀ {α β : Type} {rule : Rule α} {next : α → Rule β}, Holds α rule →
    (∀ a, Holds β (next a)) → Holds β (rule >>= next)
  traced : ∀ {α : Type} (name : RuleName) {rule : Rule α}, Holds α rule →
    Holds α (Rule.traced name rule)
  attempt : ∀ {α : Type} {rule : Rule α}, Holds α rule → Holds (Option α) (Rule.attempt rule)

variable {Holds : (α : Type) → Rule α → Prop} {α : Type} {pace : Pace}
variable {rule : (Precedence → Rule Expr) → Rule α}

theorem Composed.holds (compositional : Compositional Holds) (composed : Composed pace rule)
    {expr : Precedence → Rule Expr} (nested : ∀ context, Holds Expr (expr context)) :
    Holds α (rule expr) := by
  induction composed with
  | nested context => exact nested context
  | pure a => exact compositional.pure a
  | fail diagnostic => exact compositional.fail diagnostic
  | current => exact compositional.current
  | peek => exact compositional.peek
  | advance => exact compositional.advance
  | bind _ _ ih ih' => exact compositional.bind ih ih'
  | traced name _ ih => exact compositional.traced name ih
  | attempt _ ih => exact compositional.attempt ih
  | later _ ih => exact ih
  | atOnce _ ih => exact ih

theorem expression_holds (compositional : Compositional Holds) (bound : Nat)
    (context : Precedence) : Holds Expr (expression bound context) := by
  induction bound generalizing context with
  | zero => exact compositional.traced _ (compositional.fail _)
  | succ bound ih =>
    refine compositional.traced _ (compositional.bind ?_ fun left => ?_)
    · exact (operand_composed bound).holds compositional ih
    · exact (extensions_composed context bound bound left).holds compositional ih

/-- Every grammar rule has the properties that pass from parts to wholes. -/
theorem Grammatical.holds (compositional : Compositional Holds) (grammatical : Grammatical rule)
    (bound : Nat) : Holds α (rule (Grammar.expression bound)) :=
  grammatical.composed.holds compositional (expression_holds compositional bound)

end TreeWalk
