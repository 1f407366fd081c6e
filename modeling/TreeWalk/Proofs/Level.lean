import TreeWalk.Proofs.Composed
import TreeWalk.Proofs.Run

/-!
# The level of the trace

A traced rule takes the level up before it begins, and down from wherever the rule inside has left
it.  Rules end early at many points, and after a failure reading goes on with the level as the
failure has left it.  One rule that did not take the level back would shift all that is traced
behind it.

Results:
1. that a rule leaves the tracing level as it found it passes from its parts to the rule
   (`Restores.bind`, `Restores.traced`, `Restores.attempt`);
2. so every grammar rule does, with a result or without (`Grammatical.restores`).
-/

namespace TreeWalk

/-- Whatever the rule is run on, and also if it fails, it leaves the level of the trace as it found
it. -/
def Restores (α : Type) (rule : Rule α) : Prop :=
  ∀ tracing level tokens, (rule tracing level tokens).level = level

section

variable {α β : Type} {rule : Rule α} {next : α → Rule β}

theorem Restores.bind (first : Restores α rule) (second : ∀ a, Restores β (next a)) :
    Restores β (rule >>= next) := by
  intro tracing level tokens
  rw [Rule.bind_apply]
  cases (rule tracing level tokens).value with
  | none => exact first tracing level tokens
  | some a => exact (second a _ _ _).trans (first tracing level tokens)

/-- The level that goes down has gone up before, since the rule inside has restored it. -/
theorem Restores.traced (name : RuleName) (restores : Restores α rule) :
    Restores α (Rule.traced name rule) := by
  intro tracing level tokens
  cases tracing with
  | false => exact restores false level tokens
  | true =>
    calc (rule true (level + 1) tokens).level - 1 = (level + 1) - 1 := by
          rw [restores true (level + 1) tokens]
      _ = level := Nat.add_sub_cancel level 1

theorem Restores.attempt (restores : Restores α rule) :
    Restores (Option α) (Rule.attempt rule) := by
  intro tracing level tokens
  rw [Rule.attempt]
  cases (rule tracing level tokens).value <;> exact restores tracing level tokens

/-- What a rule yields, it yields with the tracing level as it was. -/
theorem Restores.eq_of_run {tracing : Bool} {level after : Nat} {tokens rest : List Token}
    {value : Option α} {notes : List Note} (restores : Restores α rule)
    (run : rule tracing level tokens = ⟨value, rest, notes, after⟩) : after = level := by
  rw [← restores tracing level tokens, run]

end

theorem restores_compositional : Compositional Restores where
  pure _ _ _ _ := rfl
  fail _ _ _ _ := rfl
  current _ _ _ := rfl
  peek _ _ _ := rfl
  advance _ _ _ := rfl
  bind := Restores.bind
  traced name _ := Restores.traced name
  attempt := Restores.attempt

/-- Every grammar rule leaves the tracing level as it found it. -/
theorem Grammatical.restores {α : Type} {rule : (Precedence → Rule Expr) → Rule α}
    (grammatical : Grammatical rule) (bound : Nat) :
    Restores α (rule (Grammar.expression bound)) :=
  grammatical.holds restores_compositional bound

end TreeWalk
