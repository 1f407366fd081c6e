import TreeWalk.Proofs.Run

/-!
# Silent rules

A rule that notes no diagnostic has a result.  What is known of the result, and of the tokens that
are left, is put together here from what is known of the rules that the rule consists of.

Results:
1. one lemma for each way to build a rule (`Rule.Ensures.bind`, `Rule.Ensures.expect`,
   `Rule.Ensures.attempt` and so on).
-/

namespace TreeWalk

namespace Rule

variable {α β : Type}

/-- If the rule notes no diagnostic, it has a result, and `post` holds of it and of the tokens that
are left. -/
def Ensures (rule : Rule α) (tokens : List Token) (post : α → List Token → Prop) : Prop :=
  ∀ tracing level, (rule tracing level tokens).notes.filterMap Note.diagnostic? = [] →
    ∃ a, (rule tracing level tokens).value = some a ∧ post a (rule tracing level tokens).rest

namespace Ensures

variable {rule : Rule α} {next : α → Rule β} {tokens : List Token}
variable {mid : α → List Token → Prop} {post : β → List Token → Prop}

theorem pure {b : β} (holds : post b tokens) : Ensures (Pure.pure b) tokens post :=
  fun _ _ _ => ⟨b, rfl, holds⟩

theorem fail (diagnostic : Diagnostic) : Ensures (Rule.fail diagnostic) tokens post :=
  fun _ _ => nofun

theorem imp {mid' : α → List Token → Prop} (ensures : rule.Ensures tokens mid)
    (weaker : ∀ a rest, mid a rest → mid' a rest) : rule.Ensures tokens mid' := by
  intro tracing level silent
  obtain ⟨a, done, holds⟩ := ensures tracing level silent
  exact ⟨a, done, weaker a _ holds⟩

theorem bind (first : rule.Ensures tokens mid)
    (second : ∀ a rest, mid a rest → (next a).Ensures rest post) :
    (rule >>= next).Ensures tokens post := by
  intro tracing level silent
  rw [bind_apply] at silent ⊢
  cases found : (rule tracing level tokens).value with
  | none =>
    rw [found] at silent
    obtain ⟨a, done, _⟩ := first tracing level silent
    rw [found] at done
    cases done
  | some a =>
    rw [found] at silent
    obtain ⟨before, behind⟩ := List.append_eq_nil_iff.mp (List.filterMap_append ▸ silent)
    obtain ⟨a', done, holds⟩ := first tracing level before
    rw [found] at done
    cases done
    exact second a _ holds tracing _ behind

/-- What a trace adds is no diagnostic. -/
theorem traced (name : RuleName) (ensures : rule.Ensures tokens mid) :
    (traced name rule).Ensures tokens mid := by
  intro tracing level silent
  cases tracing with
  | false => exact ensures false level silent
  | true =>
    have noted : ((rule true (level + 1) tokens).notes ++ [Note.trace _]).filterMap
        Note.diagnostic? = [] := silent
    exact ensures true (level + 1) (List.append_eq_nil_iff.mp (List.filterMap_append ▸ noted)).1

theorem attempt (ensures : rule.Ensures tokens mid) :
    (attempt rule).Ensures tokens fun result rest => ∃ a, result = some a ∧ mid a rest := by
  intro tracing level silent
  rw [Rule.attempt] at silent ⊢
  cases found : (rule tracing level tokens).value with
  | none =>
    simp only [found, List.filterMap_append, List.append_eq_nil_iff] at silent
    obtain ⟨a, done, _⟩ := ensures tracing level silent.1
    rw [found] at done
    cases done
  | some a =>
    simp only [found] at silent ⊢
    obtain ⟨a', done, holds⟩ := ensures tracing level silent
    rw [found] at done
    cases done
    exact ⟨_, rfl, a, rfl, holds⟩

/-! ## The cursor -/

theorem current {next : Token → Rule β} (holds : (next (tokens.headD .eof)).Ensures tokens post) :
    (Rule.current >>= next).Ensures tokens post := by
  intro tracing level
  rw [current_bind]
  exact holds tracing level

theorem peek {next : Token → Rule β}
    (holds : (next (tokens.tail.headD .eof)).Ensures tokens post) :
    (Rule.peek >>= next).Ensures tokens post := by
  intro tracing level
  rw [peek_bind]
  exact holds tracing level

theorem advance {next : Unit → Rule β} (holds : (next ()).Ensures tokens.tail post) :
    (Rule.advance >>= next).Ensures tokens post := by
  intro tracing level
  rw [advance_bind]
  exact holds tracing level

/-- What is expected does come, since a diagnostic is noted otherwise. -/
theorem expect {kind : TokenKind} {next : Unit → Rule β}
    (holds : (tokens.tail.headD .eof).kind = kind → (next ()).Ensures tokens.tail post) :
    (Rule.expect kind >>= next).Ensures tokens post := by
  by_cases comes : (tokens.tail.headD .eof).kind = kind
  · intro tracing level
    rw [expect_bind tracing level _ comes]
    exact holds comes tracing level
  · have failed : (Rule.expect kind).Ensures tokens fun _ _ => False := by
      rw [Rule.expect]
      refine peek ?_
      rw [if_neg comes]
      exact fail _
    exact bind failed fun _ _ never => never.elim

theorem expect_only {kind : TokenKind} {token : Token} {next : Unit → Rule β}
    (only : kind.only? = some token)
    (holds : ∀ rest, tokens.tail = token :: rest → (next ()).Ensures (token :: rest) post) :
    (Rule.expect kind >>= next).Ensures tokens post := by
  refine expect fun comes => ?_
  have found := eq_cons_of_only? only comes
  rw [found]
  exact holds _ found

theorem skip {kind : TokenKind} {next : Unit → Rule β}
    (holds : (next ()).Ensures
      (if (tokens.tail.headD .eof).kind = kind then tokens.tail else tokens) post) :
    (Rule.skip kind >>= next).Ensures tokens post := by
  intro tracing level
  rw [skip_bind]
  exact holds tracing level

end Ensures

end Rule

end TreeWalk
