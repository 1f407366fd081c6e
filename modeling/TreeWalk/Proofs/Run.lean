import TreeWalk.Parser.Grammar

/-!
# Running grammar rules

How a rule that is run without a trace gets on with the tokens from its cursor on.

Results:
1. a rule that notes nothing hands over to the next one (`Rule.bind_of_clean`), and the primitive
   rules move the cursor as they say (`Rule.advance_bind`, `Rule.expect_bind`, `Rule.skip_bind`);
2. a kind tells the token unless tokens of the kind have texts of their own
   (`Token.eq_of_only?`, `eq_cons_of_only?`).
-/

namespace TreeWalk

/-! ## One rule after another -/

namespace Rule

variable {α β : Type}

theorem bind_of_clean {rule : Rule α} {a : α} {tracing : Bool} {level : Nat}
    {tokens rest : List Token}
    (done : rule tracing level tokens = ⟨some a, rest, [], level⟩) (next : α → Rule β) :
    (rule >>= next) tracing level tokens = next a tracing level rest := by
  rw [bind_of_some done]
  rfl

variable (tracing : Bool) (level : Nat) (tokens : List Token)

theorem current_bind (next : Token → Rule β) :
    (current >>= next) tracing level tokens = next (tokens.headD .eof) tracing level tokens :=
  bind_of_clean rfl next

theorem peek_bind (next : Token → Rule β) :
    (peek >>= next) tracing level tokens = next (tokens.tail.headD .eof) tracing level tokens :=
  bind_of_clean rfl next

theorem advance_bind (next : Unit → Rule β) :
    (advance >>= next) tracing level tokens = next () tracing level tokens.tail :=
  bind_of_clean rfl next

theorem expect_bind {kind : TokenKind} (comes : (tokens.tail.headD .eof).kind = kind)
    (next : Unit → Rule β) :
    (expect kind >>= next) tracing level tokens = next () tracing level tokens.tail := by
  refine bind_of_clean ?_ next
  rw [expect, peek_bind, if_pos comes]
  rfl

theorem expect_fails {kind : TokenKind} (other : (tokens.tail.headD .eof).kind ≠ kind) :
    expect kind tracing level tokens =
      ⟨none, tokens, [.diagnostic (.unexpected kind (tokens.tail.headD .eof).kind)], level⟩ := by
  rw [expect, peek_bind, if_neg other]
  rfl

theorem skip_bind (kind : TokenKind) (next : Unit → Rule β) :
    (skip kind >>= next) tracing level tokens =
      next () tracing level
        (if (tokens.tail.headD .eof).kind = kind then tokens.tail else tokens) := by
  refine bind_of_clean ?_ next
  rw [skip, peek_bind]
  split <;> rfl

theorem traced_false (name : RuleName) (rule : Rule α) : traced name rule false = rule false :=
  rfl

section

variable (name : RuleName) (rule : Rule α) (tracing : Bool) (level : Nat) (tokens : List Token)

theorem traced_true :
    traced name rule true level tokens =
      ⟨(rule true (level + 1) tokens).value, (rule true (level + 1) tokens).rest,
        .trace (.enter level name) :: ((rule true (level + 1) tokens).notes ++
          [.trace (.leave (indent (rule true (level + 1) tokens).level) name)]),
        (rule true (level + 1) tokens).level - 1⟩ :=
  rfl

/-- A traced rule has the result and leaves the tokens of the rule inside it. -/
theorem exists_traced :
    ∃ inside, (traced name rule tracing level tokens).value = (rule tracing inside tokens).value ∧
      (traced name rule tracing level tokens).rest = (rule tracing inside tokens).rest := by
  cases tracing with
  | false => exact ⟨level, rfl, rfl⟩
  | true => exact ⟨level + 1, rfl, rfl⟩

theorem traced_congr {rule' : Rule α}
    (same : ∀ tracing level, rule tracing level tokens = rule' tracing level tokens) :
    traced name rule tracing level tokens = traced name rule' tracing level tokens := by
  cases tracing with
  | false => exact same false level
  | true => rw [traced_true, traced_true, same]

end

end Rule

/-! ## Tokens told by their kinds -/

/-- The token of a kind, unless tokens of that kind have texts of their own.  The end of the text is
no token of a text. -/
def TokenKind.only? : TokenKind → Option Token
  | illegal | eof | ident | int | str => none
  | assign => some .assign
  | plus => some .plus
  | minus => some .minus
  | slash => some .slash
  | asterisk => some .asterisk
  | bang => some .bang
  | lt => some .lt
  | gt => some .gt
  | eq => some .eq
  | notEq => some .notEq
  | comma => some .comma
  | semicolon => some .semicolon
  | lparen => some .lparen
  | rparen => some .rparen
  | lbrace => some .lbrace
  | rbrace => some .rbrace
  | elseWord => some .elseWord
  | falseWord => some .falseWord
  | fnWord => some .fnWord
  | ifWord => some .ifWord
  | letWord => some .letWord
  | returnWord => some .returnWord
  | trueWord => some .trueWord

theorem Token.eq_of_only? {kind : TokenKind} {token other : Token} (only : kind.only? = some other)
    (same : token.kind = kind) : token = other := by
  subst same
  cases token <;> cases only <;> rfl

theorem Token.eq_eof {token : Token} (ends : token.kind = .eof) : token = .eof := by
  cases token <;> first | rfl | cases ends

/-- The first token is there if it is told by its kind. -/
theorem eq_cons_of_only? {kind : TokenKind} {token : Token} {tokens : List Token}
    (only : kind.only? = some token) (same : (tokens.headD .eof).kind = kind) :
    tokens = token :: tokens.tail := by
  cases tokens with
  | nil =>
    subst same
    cases only
  | cons first tokens => exact congrArg (· :: tokens) (Token.eq_of_only? only same)

end TreeWalk
