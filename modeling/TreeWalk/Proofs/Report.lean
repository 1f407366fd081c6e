import TreeWalk.Proofs.Acceptance
import TreeWalk.Proofs.Composed
import TreeWalk.Proofs.Resync

/-!
# Every loss is reported once

A statement that is given up is reported, and nothing else is: each diagnostic is the reason for
which one statement was given up, at whatever depth that stood.  A rule that fails has noted one
diagnostic of its own, which it leaves to the statement around it, and a rule that has a result has
noted none.

Results:
1. this passes from the parts of a rule to the rule (`accounts_compositional`);
2. so it holds of every grammar rule, and of a program, where there are as many diagnostics as
   statements given up (`each_drop_reported_once`).
-/

namespace TreeWalk

open Grammar

/-! ## Notes -/

/-- The notes that are no part of the trace. -/
def findings (notes : List Note) : List Note :=
  notes.filter (·.trace?.isNone)

/-- Statements given up one after the other, each for a reason. -/
def drops (reasons : List Diagnostic) : List Note :=
  reasons.flatMap fun reason => [.diagnostic reason, .dropped]

theorem findings_append (notes notes' : List Note) :
    findings (notes ++ notes') = findings notes ++ findings notes' :=
  List.filter_append ..

theorem drops_append (reasons reasons' : List Diagnostic) :
    drops (reasons ++ reasons') = drops reasons ++ drops reasons' :=
  List.flatMap_append

theorem diagnostics_findings (notes : List Note) :
    (findings notes).filterMap Note.diagnostic? = notes.filterMap Note.diagnostic? := by
  induction notes with
  | nil => rfl
  | cons note notes ih =>
    cases note with
    | diagnostic reason => exact congrArg (reason :: ·) ih
    | dropped | trace _ => exact ih

theorem dropped_findings (notes : List Note) :
    (findings notes).count .dropped = notes.count .dropped :=
  List.count_filter rfl

theorem diagnostics_drops (reasons : List Diagnostic) :
    (drops reasons).filterMap Note.diagnostic? = reasons := by
  induction reasons with
  | nil => rfl
  | cons reason reasons ih => exact congrArg (reason :: ·) ih

theorem dropped_drops (reasons : List Diagnostic) :
    (drops reasons).count .dropped = reasons.length := by
  induction reasons with
  | nil => rfl
  | cons reason reasons ih =>
    show ([Note.diagnostic reason, .dropped] ++ drops reasons).count .dropped = reasons.length + 1
    rw [List.count_append, ih, Nat.add_comm]
    rfl

/-! ## Accounts -/

/-- Every statement given up inside has its reason.  Beside those, a failure has one diagnostic of
its own, which comes last, and a result has none. -/
def Outcome.Accounted {α : Type} (outcome : Outcome α) : Prop :=
  ∃ (reasons : List Diagnostic) (own : Option Diagnostic),
    findings outcome.notes = drops reasons ++ own.toList.map .diagnostic ∧
      (own = none ↔ outcome.value.isSome)

/-- Whatever the rule is run on, what comes of it is accounted for. -/
def Accounts (α : Type) (rule : Rule α) : Prop :=
  ∀ tracing level tokens, (rule tracing level tokens).Accounted

section

variable {α β : Type} {rule : Rule α} {next : α → Rule β}

theorem accounts_of_silent (silent : ∀ tracing level tokens, (rule tracing level tokens).notes = [])
    (done : ∀ tracing level tokens, (rule tracing level tokens).value.isSome) :
    Accounts α rule := by
  intro tracing level tokens
  refine ⟨[], none, ?_, fun _ => done tracing level tokens, fun _ => rfl⟩
  rw [silent tracing level tokens]
  rfl

theorem Accounts.bind (first : Accounts α rule) (second : ∀ a, Accounts β (next a)) :
    Accounts β (rule >>= next) := by
  intro tracing level tokens
  obtain ⟨reasons, own, notes, failed⟩ := first tracing level tokens
  rcases run : rule tracing level tokens with ⟨value, rest, noted, after⟩
  rw [run] at notes failed
  cases value with
  | none =>
    rw [Rule.bind_of_none run]
    exact ⟨reasons, own, notes, failed⟩
  | some a =>
    -- The first rule has a result, so what is still to be reported comes of the second.
    obtain rfl : own = none := failed.mpr rfl
    obtain ⟨reasons', own', notes', failed'⟩ := second a tracing after rest
    rw [Rule.bind_of_some run]
    refine ⟨reasons ++ reasons', own', ?_, failed'⟩
    calc findings (noted ++ (next a tracing after rest).notes)
        = drops reasons ++ [] ++ (drops reasons' ++ own'.toList.map .diagnostic) := by
          rw [findings_append, notes, notes']
          rfl
      _ = drops (reasons ++ reasons') ++ own'.toList.map .diagnostic := by
          rw [drops_append, List.append_nil, List.append_assoc]

theorem Accounts.traced (name : RuleName) (accounts : Accounts α rule) :
    Accounts α (Rule.traced name rule) := by
  intro tracing level tokens
  cases tracing with
  | false => exact accounts false level tokens
  | true =>
    obtain ⟨reasons, own, notes, failed⟩ := accounts true (level + 1) tokens
    refine ⟨reasons, own, ?_, failed⟩
    show findings ([.trace _] ++ ((rule true (level + 1) tokens).notes ++ [.trace _])) = _
    rw [findings_append, findings_append, notes]
    exact List.append_nil _

/-- The diagnostic of a failure becomes the reason for which the statement is given up. -/
theorem Accounts.attempt (accounts : Accounts α rule) :
    Accounts (Option α) (Rule.attempt rule) := by
  intro tracing level tokens
  obtain ⟨reasons, own, notes, failed⟩ := accounts tracing level tokens
  rw [Rule.attempt]
  rcases run : rule tracing level tokens with ⟨_ | a, rest, noted, after⟩
  · rw [run] at notes failed
    cases own with
    | none =>
      have yields : (none : Option α).isSome := failed.mp rfl
      cases yields
    | some reason =>
      refine ⟨reasons ++ [reason], none, ?_, fun _ => rfl, fun _ => rfl⟩
      show findings (noted ++ [.dropped]) = _
      rw [findings_append, notes, drops_append, List.append_assoc]
      exact (List.append_nil _).symm
  · rw [run] at notes failed
    exact ⟨reasons, own, notes, failed⟩

end

theorem accounts_compositional : Compositional Accounts where
  pure _ := accounts_of_silent (fun _ _ _ => rfl) fun _ _ _ => rfl
  fail diagnostic _ _ _ := ⟨[], some diagnostic, rfl, nofun, nofun⟩
  current := accounts_of_silent (fun _ _ _ => rfl) fun _ _ _ => rfl
  peek := accounts_of_silent (fun _ _ _ => rfl) fun _ _ _ => rfl
  advance := accounts_of_silent (fun _ _ _ => rfl) fun _ _ _ => rfl
  bind := .bind
  traced name _ accounts := accounts.traced name
  attempt := .attempt

/-! ## Programs -/

theorem Parse.findings_notes (tokens : List Token) (tracing : Bool) :
    findings (ofTokens tokens tracing).notes = drops (ofTokens tokens tracing).diagnostics := by
  have accounts := (Grammatical.statements [] tokens.length).holds accounts_compositional
    tokens.length
  obtain ⟨reasons, own, notes, failed⟩ := accounts tracing 0 tokens
  obtain ⟨statements, rest, noted, after, run⟩ :=
    statements_some (expression tokens.length) [] tokens.length tracing 0 tokens
  obtain rfl : own = none := failed.mpr (congrArg (·.value.isSome) run)
  have notes : findings (ofTokens tokens tracing).notes = drops reasons :=
    notes.trans (List.append_nil _)
  rw [notes, diagnostics, ← diagnostics_findings, notes, diagnostics_drops]

theorem Parse.dropped_eq (tokens : List Token) (tracing : Bool) :
    (ofTokens tokens tracing).dropped = (ofTokens tokens tracing).diagnostics.length := by
  rw [dropped, ← dropped_findings, findings_notes, dropped_drops]

/-- Where an operand may go on, the next token writes an operator or opens arguments. -/
theorem Operator.ofToken?_isSome {context : Precedence} {next : Token}
    (tighter : context < .ofKind next.kind) (other : next ≠ .lparen) :
    (ofToken? next).isSome := by
  obtain ⟨op, -, rfl⟩ | opens := operator_or_lparen_of_lt tighter
  · rw [ofToken?_token]
    rfl
  · exact absurd opens other

/-- A parse notes one diagnostic for each statement that is given up, and right before that.  No
rule fails without a diagnostic of its own or notes more than one, and no look-up of an operator
misses. -/
theorem each_drop_reported_once :
    (∀ (tokens : List Token) (tracing : Bool),
      findings (Parse.ofTokens tokens tracing).notes =
          drops (Parse.ofTokens tokens tracing).diagnostics ∧
        (Parse.ofTokens tokens tracing).dropped =
          (Parse.ofTokens tokens tracing).diagnostics.length ∧
        ((Parse.ofTokens tokens tracing).diagnostics = [] ↔
          (Parse.ofTokens tokens tracing).dropped = 0)) ∧
    (∀ {α : Type} {rule : (Precedence → Rule Expr) → Rule α}, Grammatical rule →
      ∀ (bound : Nat) (tracing : Bool) (level : Nat) (tokens : List Token),
        (rule (expression bound) tracing level tokens).Accounted) ∧
    (∀ {context : Precedence} {next : Token}, context < .ofKind next.kind → next ≠ .lparen →
      (Operator.ofToken? next).isSome) ∧
    Operator.ofToken? .bang = some .bang ∧ Operator.ofToken? .minus = some .minus := by
  refine ⟨fun tokens tracing => ?_, fun grammatical bound => ?_, Operator.ofToken?_isSome, rfl, rfl⟩
  · have count := Parse.dropped_eq tokens tracing
    refine ⟨Parse.findings_notes tokens tracing, count, ?_⟩
    rw [count, List.length_eq_zero_iff]
  · exact grammatical.holds accounts_compositional bound

/-- `fn() { let } +` -/
def nestedDamage : List Token :=
  [.fnWord, .lparen, .rparen, .lbrace, .letWord, .rbrace, .plus]

/-- A statement inside the block is given up, and the one around it then too. -/
theorem each_drop_reported_once_of_nested :
    (Parse.ofTokens nestedDamage false).diagnostics =
        [.unexpected .ident .rbrace, .noExpression .eof] ∧
      (Parse.ofTokens nestedDamage false).dropped = 2 ∧
      (function (expression 7) 7 false 0 nestedDamage).Accounted ∧
      .lowest < Precedence.ofKind Token.plus.kind ∧ Token.plus ≠ .lparen ∧
      (Operator.ofToken? .plus).isSome := by
  obtain ⟨counts, rules, operators, -⟩ := each_drop_reported_once
  have tighter : .lowest < Precedence.ofKind Token.plus.kind := by decide
  have other : Token.plus ≠ .lparen := by decide
  refine ⟨rfl, ?_, rules (.function 7) 7 false 0 _, tighter, other, operators tighter other⟩
  rw [(counts _ _).2.1]
  rfl

end TreeWalk
