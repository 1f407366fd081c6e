import TreeWalk.Proofs.Level
import TreeWalk.Proofs.Report

/-!
# The trace

A parser that is asked to trace notes more and does nothing else: leaving out the trace gives the
notes of one that is not asked.  Wherever a rule fails, each rule that has begun still ends, and the
level of the trace is then what it was before.  So the trace is well bracketed, and a record is
indented by the number of rules around it.

Results:
1. that tracing adds a well-bracketed trace and changes nothing passes from the parts of a rule to
   the rule, since the parts restore the level (`traces_compositional`);
2. so it holds of every grammar rule (`Grammatical.traces`), and of a program, at the end of which
   the level is back at 0 (`tracing_only_adds_trace`).
-/

namespace TreeWalk

/-! ## Brackets -/

/-- Rules one after the other, inside `depth` others: each begins and ends, its two records name it
and are indented by `depth`, and between them are the rules inside. -/
inductive Bracketed : Nat → List TraceRecord → Prop
  | nil {depth : Nat} : Bracketed depth []
  | rule {depth : Nat} {inside behind : List TraceRecord} (name : RuleName) :
      Bracketed (depth + 1) inside → Bracketed depth behind →
      Bracketed depth (.enter depth name :: (inside ++ .leave depth name :: behind))

theorem Bracketed.append {depth : Nat} {records more : List TraceRecord}
    (first : Bracketed depth records) (second : Bracketed depth more) :
    Bracketed depth (records ++ more) := by
  induction first with
  | nil => exact second
  | @rule depth inside behind name inner _ _ ih =>
    rw [List.cons_append, List.append_assoc]
    exact .rule name inner (ih second)

/-! ## Rules -/

theorem trace_findings (notes : List Note) : (findings notes).filterMap Note.trace? = [] := by
  refine List.filterMap_eq_nil_iff.mpr fun note member => ?_
  exact Option.isNone_iff_eq_none.mp (List.mem_filter.mp member).2

/-- What comes of a rule with a trace is what comes of it without one, and in addition a trace that
is well bracketed inside `depth` rules. -/
structure Outcome.Traced {α : Type} (plain traced : Outcome α) (depth : Nat) : Prop where
  value : traced.value = plain.value
  rest : traced.rest = plain.rest
  findings : findings traced.notes = plain.notes
  bracketed : Bracketed depth (traced.notes.filterMap Note.trace?)

/-- Whatever the rule is run on, tracing only adds to what comes of it, and the level of the trace
is restored.  Without a trace, its level does not matter. -/
structure Traces (α : Type) (rule : Rule α) : Prop where
  restores : Restores α rule
  adds : ∀ unused level tokens, (rule false unused tokens).Traced (rule true level tokens) level

section

variable {α β : Type} {rule : Rule α} {next : α → Rule β}

/-- The second rule runs at the level of the first, since that has restored it. -/
theorem Traces.bind (first : Traces α rule) (second : ∀ a, Traces β (next a)) :
    Traces β (rule >>= next) := by
  refine ⟨first.restores.bind fun a => (second a).restores, fun unused level tokens => ?_⟩
  obtain ⟨value, rest, notes, bracketed⟩ := first.adds unused level tokens
  rcases run : rule false unused tokens with ⟨plain, left, noted, after⟩
  rcases run' : rule true level tokens with ⟨traced, left', noted', after'⟩
  have restored : after' = level := first.restores.eq_of_run run'
  rw [run, run'] at value rest notes
  rw [run'] at bracketed
  dsimp only at value rest notes bracketed
  subst value rest
  cases traced with
  | none =>
    rw [Rule.bind_of_none run, Rule.bind_of_none run']
    exact ⟨rfl, rfl, notes, bracketed⟩
  | some a =>
    obtain ⟨value, rest, notes', bracketed'⟩ := (second a).adds after after' left'
    rw [Rule.bind_of_some run, Rule.bind_of_some run']
    refine ⟨value, rest, ?_, ?_⟩
    · rw [findings_append, notes, notes']
    · rw [List.filterMap_append]
      exact bracketed.append (restored ▸ bracketed')

/-- The end of a rule is noted behind all that the rule notes, its failure included, and it is
indented as the beginning is, since the rule inside has restored the level. -/
theorem Traces.traced (name : RuleName) (traces : Traces α rule) :
    Traces α (Rule.traced name rule) := by
  refine ⟨traces.restores.traced name, fun unused level tokens => ?_⟩
  obtain ⟨value, rest, notes, bracketed⟩ := traces.adds unused (level + 1) tokens
  have restored : (rule true (level + 1) tokens).level = level + 1 :=
    traces.restores true (level + 1) tokens
  rw [Rule.traced_false, Rule.traced_true, restored]
  refine ⟨value, rest, ?_, ?_⟩
  · show findings (_ ++ [_]) = _
    rw [findings_append, notes]
    exact List.append_nil _
  · show Bracketed level (.enter level name :: (_ ++ [_]).filterMap Note.trace?)
    rw [List.filterMap_append]
    exact .rule name bracketed .nil

theorem Traces.attempt (traces : Traces α rule) : Traces (Option α) (Rule.attempt rule) := by
  refine ⟨traces.restores.attempt, fun unused level tokens => ?_⟩
  obtain ⟨value, rest, notes, bracketed⟩ := traces.adds unused level tokens
  rw [Rule.attempt, Rule.attempt, value]
  cases (rule false unused tokens).value with
  | none =>
    refine ⟨rfl, rest, ?_, ?_⟩
    · show findings (_ ++ [_]) = _
      rw [findings_append, notes]
      rfl
    · rw [List.filterMap_append]
      exact bracketed.append .nil
  | some a => exact ⟨rfl, rest, notes, bracketed⟩

end

theorem traces_compositional : Compositional Traces where
  pure a := ⟨restores_compositional.pure a, fun _ _ _ => ⟨rfl, rfl, rfl, .nil⟩⟩
  fail diagnostic :=
    ⟨restores_compositional.fail diagnostic, fun _ _ _ => ⟨rfl, rfl, rfl, .nil⟩⟩
  current := ⟨restores_compositional.current, fun _ _ _ => ⟨rfl, rfl, rfl, .nil⟩⟩
  peek := ⟨restores_compositional.peek, fun _ _ _ => ⟨rfl, rfl, rfl, .nil⟩⟩
  advance := ⟨restores_compositional.advance, fun _ _ _ => ⟨rfl, rfl, rfl, .nil⟩⟩
  bind := Traces.bind
  traced name _ := Traces.traced name
  attempt := Traces.attempt

/-- With every grammar rule, tracing adds a well-bracketed trace and changes nothing. -/
theorem Grammatical.traces {α : Type} {rule : (Precedence → Rule Expr) → Rule α}
    (grammatical : Grammatical rule) (bound : Nat) :
    Traces α (rule (Grammar.expression bound)) :=
  grammatical.holds traces_compositional bound

/-! ## Programs -/

/-- Every grammar rule, whether it fails or not, leaves the level of the trace as it found it.  Of
any tokens, the trace is well bracketed, and at the end its level is back at 0.  Nothing else
depends on whether there is a trace, and there is none if none is asked for. -/
theorem tracing_only_adds_trace :
    (∀ {α : Type} {rule : (Precedence → Rule Expr) → Rule α}, Grammatical rule →
      ∀ (bound : Nat) (tracing : Bool) (level : Nat) (tokens : List Token),
        (rule (Grammar.expression bound) tracing level tokens).level = level) ∧
    ∀ tokens : List Token,
      Bracketed 0 (Parse.ofTokens tokens true).trace ∧
      (∀ tracing, (Parse.outcome tokens tracing).level = 0) ∧
      (Parse.ofTokens tokens true).program = (Parse.ofTokens tokens false).program ∧
      (Parse.ofTokens tokens true).diagnostics = (Parse.ofTokens tokens false).diagnostics ∧
      (Parse.ofTokens tokens true).dropped = (Parse.ofTokens tokens false).dropped ∧
      (Parse.ofTokens tokens false).trace = [] := by
  refine ⟨fun grammatical => grammatical.restores, fun tokens => ?_⟩
  have traces := (Grammatical.statements [] tokens.length).traces tokens.length
  obtain ⟨value, _, notes, bracketed⟩ := traces.adds 0 0 tokens
  have notes : findings (Parse.ofTokens tokens true).notes = (Parse.ofTokens tokens false).notes :=
    notes
  have same : (Parse.ofTokens tokens true).program = (Parse.ofTokens tokens false).program :=
    congrArg (fun value => Program.mk (value.getD [])) value
  refine ⟨bracketed, fun tracing => traces.restores tracing 0 tokens, same, ?_, ?_, ?_⟩
  · rw [Parse.diagnostics, Parse.diagnostics, ← notes, diagnostics_findings]
  · rw [Parse.dropped, Parse.dropped, ← notes, dropped_findings]
  · rw [Parse.trace, ← notes, trace_findings]

/-- A sign without an operand: four rules fail, each of them ends, and the third restores its
level. -/
theorem tracing_only_adds_trace_of_sign :
    (Parse.ofTokens [.minus] true).trace =
      [.enter 0 .expressionStatement, .enter 1 .expression, .enter 2 .prefixExpression,
        .enter 3 .expression, .leave 3 .expression, .leave 2 .prefixExpression,
        .leave 1 .expression, .leave 0 .expressionStatement] ∧
    Bracketed 0 (Parse.ofTokens [.minus] true).trace ∧
    (Grammar.prefixExpr (Grammar.expression 0) .minus true 2 [.minus]).value.isNone ∧
    (Grammar.prefixExpr (Grammar.expression 0) .minus true 2 [.minus]).level = 2 := by
  obtain ⟨restores, adds⟩ := tracing_only_adds_trace
  exact ⟨by decide, (adds [.minus]).1, rfl, restores (.prefixExpr .minus) 0 true 2 [.minus]⟩

end TreeWalk
