import TreeWalk.Token

/-!
# Supplies

What tokens have to offer to a grammar.  A block that is still open at the end of the text counts as
closed there, so braces that are not written can be supplied.

Results:
1. what is supplied in two goes is supplied in one, and the other way round
   (`Supplies.trans`, `Supplies.split`);
2. what is left over is the end of the tokens (`Supplies.suffix`), and if nothing is left, all that
   can be missing is some number of closing braces (`Supplies.nil_right_iff`).
-/

namespace TreeWalk

/-- `Supplies tokens used after`: the tokens begin with `used`, and `after` is left of them.  At the
end of the text, braces that close blocks count as used although they are not written. -/
inductive Supplies : List Token → List Token → List Token → Prop
  | nothing (after : List Token) : Supplies after [] after
  | token (first : Token) {tokens used after : List Token} :
      Supplies tokens used after → Supplies (first :: tokens) (first :: used) after
  | brace {used : List Token} : Supplies [] used [] → Supplies [] (.rbrace :: used) []

namespace Supplies

variable {tokens used mid after u v : List Token}

theorem of_append (used after : List Token) : Supplies (used ++ after) used after := by
  induction used with
  | nil => exact .nothing after
  | cons first used ih => exact .token first ih

theorem trans (front : Supplies tokens u mid) (back : Supplies mid v after) :
    Supplies tokens (u ++ v) after := by
  induction front with
  | nothing _ => exact back
  | token first _ ih => exact .token first (ih back)
  | brace _ ih =>
    have more := ih back
    cases after with
    | nil => exact .brace more
    | cons first after => cases back

theorem split (whole : Supplies tokens (u ++ v) after) :
    ∃ mid, Supplies tokens u mid ∧ Supplies mid v after := by
  induction u generalizing tokens with
  | nil => exact ⟨tokens, .nothing tokens, whole⟩
  | cons first u ih =>
    cases whole with
    | token _ rest =>
      obtain ⟨mid, front, back⟩ := ih rest
      exact ⟨mid, .token first front, back⟩
    | brace rest =>
      obtain ⟨mid, front, back⟩ := ih rest
      cases front with
      | nothing => exact ⟨[], .brace (.nothing []), back⟩
      | brace front => exact ⟨[], .brace (.brace front), back⟩

theorem nil_iff : Supplies tokens [] after ↔ tokens = after := by
  constructor
  · intro supplied
    cases supplied
    rfl
  · rintro rfl
    exact .nothing tokens

/-- Only a closing brace may be missing. -/
theorem cons_iff {first : Token} (written : first ≠ .rbrace) :
    Supplies tokens (first :: used) after ↔
      ∃ rest, tokens = first :: rest ∧ Supplies rest used after := by
  constructor
  · intro supplied
    cases supplied with
    | token _ rest => exact ⟨_, rfl, rest⟩
    | brace _ => exact absurd rfl written
  · rintro ⟨rest, rfl, supplied⟩
    exact .token first supplied

theorem append_written_iff (written : ∀ token ∈ u, token ≠ .rbrace) :
    Supplies tokens (u ++ used) after ↔
      ∃ rest, tokens = u ++ rest ∧ Supplies rest used after := by
  induction u generalizing tokens with
  | nil => simp
  | cons first u ih =>
    rw [List.cons_append, cons_iff (written first (List.mem_cons_self ..))]
    constructor
    · rintro ⟨_, rfl, supplied⟩
      obtain ⟨rest, rfl, behind⟩ :=
        (ih fun token member => written token (List.mem_cons_of_mem _ member)).mp supplied
      exact ⟨rest, rfl, behind⟩
    · rintro ⟨rest, rfl, supplied⟩
      exact ⟨u ++ rest, rfl, (of_append u rest).trans supplied⟩

theorem brace_iff :
    Supplies tokens [.rbrace] after ↔
      tokens = .rbrace :: after ∨ tokens = [] ∧ after = [] := by
  constructor
  · intro supplied
    cases supplied with
    | token _ rest =>
      cases rest
      exact .inl rfl
    | brace _ => exact .inr ⟨rfl, rfl⟩
  · rintro (rfl | ⟨rfl, rfl⟩)
    · exact .token _ (.nothing after)
    · exact .brace (.nothing [])

theorem suffix (supplied : Supplies tokens used after) : after <:+ tokens := by
  induction supplied with
  | nothing _ => exact List.suffix_rfl
  | token first _ ih => exact ih.trans (List.suffix_cons first _)
  | brace _ ih => exact ih

theorem length_le (supplied : Supplies tokens used after) : after.length ≤ tokens.length :=
  supplied.suffix.length_le

/-- With nothing left over, all that can be missing is some number of closing braces. -/
theorem nil_right_iff :
    Supplies tokens used [] ↔ ∃ k, tokens ++ List.replicate k .rbrace = used := by
  constructor
  · intro supplied
    generalize left : ([] : List Token) = after at supplied
    induction supplied with
    | nothing _ => exact ⟨0, by simp [← left]⟩
    | token first _ ih =>
      obtain ⟨k, same⟩ := ih left
      exact ⟨k, by rw [← same, List.cons_append]⟩
    | brace _ ih =>
      obtain ⟨k, same⟩ := ih rfl
      exact ⟨k + 1, by rw [← same, List.nil_append, List.nil_append, List.replicate_succ]⟩
  · rintro ⟨k, rfl⟩
    have braces : Supplies [] (List.replicate k .rbrace) [] := by
      induction k with
      | zero => exact .nothing []
      | succ k ih => exact .brace ih
    have written := of_append tokens []
    rw [List.append_nil] at written
    exact written.trans braces

end Supplies

end TreeWalk
