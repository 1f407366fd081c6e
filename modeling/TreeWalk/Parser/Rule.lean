import TreeWalk.Parser.Note

/-!
# Grammar rules

A grammar rule reads a list of tokens with a cursor.  The cursor stands on a token, the current
one, and sees the next; past the last token both are the end of the text.  A rule begins with the
cursor on its first token and ends with it on its last one.  It yields a result or fails, and
leaves notes either way.

Beside the cursor, rules hand on the level of the trace, a count of the traced rules that have begun
and not yet ended.  Nothing keeps a rule from leaving it at another level than it found it.

Results:
1. rules are a monad in which a failure skips what follows it and keeps what was noted before it
   (the instance of `LawfulMonad`).
-/

namespace TreeWalk

/-- What comes of a rule: its result, the tokens from the cursor on, its notes, and the level of the
trace as the rule leaves it. -/
structure Outcome (α : Type) where
  value : Option α
  rest : List Token
  notes : List Note
  level : Nat

/-- A grammar rule.  It is told whether there is a trace, and takes over the level of the trace and
the tokens from the cursor on. -/
def Rule (α : Type) : Type :=
  Bool → Nat → List Token → Outcome α

namespace Rule

variable {α β : Type}

/-! ## Sequencing -/

/-- The rule that reads nothing and yields `a`. -/
@[always_inline, inline]
protected def pure (a : α) : Rule α := fun _ level tokens =>
  ⟨some a, tokens, [], level⟩

/-- One rule after another, unless the first fails. -/
@[always_inline, inline]
protected def bind (rule : Rule α) (next : α → Rule β) : Rule β := fun tracing level tokens =>
  let first := rule tracing level tokens
  match first.value with
  | none => ⟨none, first.rest, first.notes, first.level⟩
  | some a =>
    let second := next a tracing first.level first.rest
    ⟨second.value, second.rest, first.notes ++ second.notes, second.level⟩

instance : Monad Rule where
  pure := Rule.pure
  bind := Rule.bind

theorem pure_apply (a : α) (tracing : Bool) (level : Nat) (tokens : List Token) :
    (pure a : Rule α) tracing level tokens = ⟨some a, tokens, [], level⟩ :=
  rfl

theorem bind_apply (rule : Rule α) (next : α → Rule β) (tracing : Bool) (level : Nat)
    (tokens : List Token) :
    (rule >>= next) tracing level tokens =
      match (rule tracing level tokens).value with
      | none => ⟨none, (rule tracing level tokens).rest, (rule tracing level tokens).notes,
          (rule tracing level tokens).level⟩
      | some a =>
        ⟨(next a tracing (rule tracing level tokens).level (rule tracing level tokens).rest).value,
          (next a tracing (rule tracing level tokens).level (rule tracing level tokens).rest).rest,
          (rule tracing level tokens).notes ++ (next a tracing (rule tracing level tokens).level
            (rule tracing level tokens).rest).notes,
          (next a tracing (rule tracing level tokens).level
            (rule tracing level tokens).rest).level⟩ :=
  rfl

section

variable {rule : Rule α} {a : α} {tracing : Bool} {level after : Nat} {tokens rest : List Token}
variable {notes : List Note}

theorem bind_of_none (failed : rule tracing level tokens = ⟨none, rest, notes, after⟩)
    (next : α → Rule β) : (rule >>= next) tracing level tokens = ⟨none, rest, notes, after⟩ := by
  rw [bind_apply, failed]

theorem bind_of_some (done : rule tracing level tokens = ⟨some a, rest, notes, after⟩)
    (next : α → Rule β) :
    (rule >>= next) tracing level tokens =
      ⟨(next a tracing after rest).value, (next a tracing after rest).rest,
        notes ++ (next a tracing after rest).notes, (next a tracing after rest).level⟩ := by
  rw [bind_apply, done]

end

instance : LawfulMonad Rule := LawfulMonad.mk' Rule
  (by
    intro α rule
    funext tracing level tokens
    show (rule >>= fun a => pure a) tracing level tokens = rule tracing level tokens
    rcases h : rule tracing level tokens with ⟨_ | a, rest, notes, after⟩
    · rw [bind_of_none h]
    · rw [bind_of_some h]
      simp [pure_apply])
  (by
    intro α β a next
    funext tracing level tokens
    rw [bind_of_some (pure_apply a tracing level tokens)]
    simp)
  (by
    intro α β γ rule next last
    funext tracing level tokens
    rcases h : rule tracing level tokens with ⟨_ | a, rest, notes, after⟩
    · rw [bind_of_none h, bind_of_none (bind_of_none h next)]
    · rw [bind_of_some h]
      rcases h' : next a tracing after rest with ⟨_ | b, rest', notes', after'⟩
      · rw [bind_of_none h', bind_of_none (by rw [bind_of_some h, h'])]
      · rw [bind_of_some h', bind_of_some (by rw [bind_of_some h, h'])]
        simp [List.append_assoc])

/-! ## The cursor -/

/-- The token under the cursor. -/
def current : Rule Token := fun _ level tokens =>
  ⟨some (tokens.headD .eof), tokens, [], level⟩

/-- The token after the one under the cursor. -/
def peek : Rule Token := fun _ level tokens =>
  ⟨some (tokens.tail.headD .eof), tokens, [], level⟩

/-- Moves the cursor to the next token. -/
def advance : Rule Unit := fun _ level tokens =>
  ⟨some (), tokens.tail, [], level⟩

/-- Fails with a diagnostic, the cursor left where it is. -/
def fail (diagnostic : Diagnostic) : Rule α := fun _ level tokens =>
  ⟨none, tokens, [.diagnostic diagnostic], level⟩

/-- Moves the cursor to the next token if that is of the given kind, and fails otherwise. -/
def expect (kind : TokenKind) : Rule Unit := do
  let next ← peek
  if next.kind = kind then advance else fail (.unexpected kind next.kind)

/-- Moves the cursor to the next token if that is of the given kind. -/
def skip (kind : TokenKind) : Rule Unit := do
  let next ← peek
  if next.kind = kind then advance else pure ()

/-! ## Failure and trace -/

/-- Runs a rule that may fail: a failure is noted, and the cursor stays where the rule left it. -/
def attempt (rule : Rule α) : Rule (Option α) := fun tracing level tokens =>
  let outcome := rule tracing level tokens
  match outcome.value with
  | none => ⟨some none, outcome.rest, outcome.notes ++ [.dropped], outcome.level⟩
  | some a => ⟨some (some a), outcome.rest, outcome.notes, outcome.level⟩

/-- By how many tabs a record is indented at a level, which counts the rule of the record too. -/
def indent (level : Nat) : Nat :=
  level - 1

/-- Puts a rule into the trace, if there is one: its beginning before all that it notes, and its
end after that, also when it fails.  The level goes up before the rule begins, and down from where
the rule has left it. -/
def traced (name : RuleName) (rule : Rule α) : Rule α
  | false, level, tokens => rule false level tokens
  | true, level, tokens =>
    let begun := level + 1
    let outcome := rule true begun tokens
    ⟨outcome.value, outcome.rest,
      .trace (.enter (indent begun) name) ::
        (outcome.notes ++ [.trace (.leave (indent outcome.level) name)]),
      outcome.level - 1⟩

end Rule

end TreeWalk
