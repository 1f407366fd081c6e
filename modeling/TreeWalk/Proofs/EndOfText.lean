import TreeWalk.Proofs.Progress
import TreeWalk.Proofs.Resync

/-!
# The end of the text

Tokens may go on behind an end of the text.  It ends the program where a statement would begin; but
a statement that is being read when the cursor comes to it is stepped over with the end of the text,
and then what stands behind it is read as well.

Results:
1. a rule does the same in front of an end of the text and whatever stands behind it as it does
   without them, until its cursor leaves the tokens; if nothing stands behind it, also then
   (`extends_compositional`);
2. an end of the text ends a program exactly if every statement before it, read or given up, ends
   before it, and then what stands behind it does not matter (`ofTokens_eof`);
3. every statement does if the blocks are closed and no expression is missing at a closing brace or
   at the end (`finishes_of_closing`).
-/

namespace TreeWalk

open Grammar

/-! ## Rules in front of an end of the text -/

namespace Rule

variable {α β : Type} {more : List Token}

/-- How a rule gets on with tokens, and with the same tokens in front of an end of the text and more
tokens behind that. -/
structure Extended (more : List Token) (short long : Outcome α) : Prop where
  kept : short.rest ≠ [] →
    long = ⟨short.value, short.rest ++ .eof :: more, short.notes, short.level⟩
  passed : short.rest = [] → long.rest <:+ .eof :: more
  padded : more = [] →
    long.value = short.value ∧ long.notes = short.notes ∧ long.level = short.level

theorem Extended.same {short long : Outcome α}
    (same : long = ⟨short.value, short.rest ++ .eof :: more, short.notes, short.level⟩) :
    Extended more short long := by
  subst same
  exact ⟨fun _ => rfl, fun last => by simp [last], fun _ => ⟨rfl, rfl, rfl⟩⟩

/-- The rule gets on with all tokens in this way, and never moves the cursor back. -/
structure Extends (rule : Rule α) : Prop where
  forward : rule.Forward
  extended : ∀ tracing level tokens more,
    Extended more (rule tracing level tokens) (rule tracing level (tokens ++ .eof :: more))

theorem Extended.prefixed {short long : Outcome α} (extended : Extended more short long)
    (notes : List Note) :
    Extended more ⟨short.value, short.rest, notes ++ short.notes, short.level⟩
      ⟨long.value, long.rest, notes ++ long.notes, long.level⟩ := by
  obtain ⟨kept, passed, padded⟩ := extended
  refine ⟨fun there => ?_, passed, fun alone => ?_⟩
  · rw [kept there]
  · obtain ⟨values, noted, levels⟩ := padded alone
    exact ⟨values, congrArg (notes ++ ·) noted, levels⟩

theorem bind_within (rule : Rule α) {next : α → Rule β} (forward : ∀ a, (next a).Forward)
    (tracing : Bool) (level : Nat) (tokens : List Token) :
    ((rule >>= next) tracing level tokens).rest <:+ (rule tracing level tokens).rest := by
  rw [bind_apply]
  split
  · exact List.suffix_rfl
  · exact forward _ _ _ _

theorem Extends.bind {rule : Rule α} {next : α → Rule β} (first : rule.Extends)
    (second : ∀ a, (next a).Extends) : (rule >>= next).Extends where
  forward := forward_compositional.bind first.forward fun a => (second a).forward
  extended tracing level tokens more := by
    have extended := first.extended tracing level tokens more
    have within := bind_within rule fun a => (second a).forward
    rcases run : rule tracing level tokens with ⟨value, rest, notes, after⟩
    rcases run' : rule tracing level (tokens ++ .eof :: more) with ⟨value', rest', notes', after'⟩
    rw [run, run'] at extended
    by_cases last : rest = []
    · -- The cursor has left the tokens, and it never comes back.
      subst last
      have passed : rest' <:+ .eof :: more := extended.passed rfl
      have ended := within tracing level tokens
      have ended' := within tracing level (tokens ++ .eof :: more)
      rw [run] at ended
      rw [run'] at ended'
      refine ⟨fun there => absurd (List.suffix_nil.mp ended) there, fun _ => ended'.trans passed,
        fun alone => ?_⟩
      obtain ⟨values, noted, levels⟩ : value' = value ∧ notes' = notes ∧ after' = after :=
        extended.padded alone
      subst alone values noted levels
      cases value' with
      | none =>
        rw [bind_of_none run, bind_of_none run']
        exact ⟨rfl, rfl, rfl⟩
      | some a =>
        rw [bind_of_some run, bind_of_some run']
        rcases List.suffix_cons_iff.mp passed with rfl | none
        · exact (((second a).extended tracing _ [] []).prefixed notes').padded rfl
        · obtain rfl := List.suffix_nil.mp none
          exact ⟨rfl, rfl, rfl⟩
    · obtain ⟨rfl, rfl, rfl, rfl⟩ : value' = value ∧ rest' = rest ++ .eof :: more ∧
          notes' = notes ∧ after' = after := by
        simpa using extended.kept last
      cases value' with
      | none =>
        rw [bind_of_none run, bind_of_none run']
        exact .same rfl
      | some a =>
        rw [bind_of_some run, bind_of_some run']
        exact ((second a).extended tracing _ rest more).prefixed notes'

theorem attempt_eq (rule : Rule α) (tracing : Bool) (level : Nat) (tokens : List Token) :
    attempt rule tracing level tokens =
      ⟨some (rule tracing level tokens).value, (rule tracing level tokens).rest,
        (rule tracing level tokens).notes ++
          (rule tracing level tokens).value.elim [.dropped] fun _ => [],
        (rule tracing level tokens).level⟩ := by
  rw [attempt]
  cases (rule tracing level tokens).value with
  | none => rfl
  | some a => rw [Option.elim_some, List.append_nil]

theorem extends_compositional : Compositional fun _ rule => rule.Extends where
  pure a := ⟨forward_compositional.pure a, fun _ _ _ _ => .same rfl⟩
  fail diagnostic := ⟨forward_compositional.fail diagnostic, fun _ _ _ _ => .same rfl⟩
  current := by
    refine ⟨forward_compositional.current, fun tracing level tokens more => .same ?_⟩
    rw [current, headD_append]
    rfl
  peek := by
    refine ⟨forward_compositional.peek, fun tracing level tokens more => ?_⟩
    cases tokens with
    | nil =>
      refine ⟨fun there => absurd rfl there, fun _ => List.suffix_rfl, fun alone => ?_⟩
      subst alone
      exact ⟨rfl, rfl, rfl⟩
    | cons first tokens =>
      refine .same ?_
      rw [peek, List.cons_append, List.tail_cons, headD_append]
      rfl
  advance := by
    refine ⟨forward_compositional.advance, fun tracing level tokens more => ?_⟩
    cases tokens with
    | nil =>
      exact ⟨fun there => absurd rfl there, fun _ => List.suffix_cons ..,
        fun _ => ⟨rfl, rfl, rfl⟩⟩
    | cons first tokens => exact .same rfl
  bind first second := first.bind second
  traced name _ rule := by
    refine ⟨forward_compositional.traced name rule.forward, fun tracing level tokens more => ?_⟩
    cases tracing with
    | false => exact rule.extended false level tokens more
    | true =>
      obtain ⟨kept, passed, padded⟩ := rule.extended true (level + 1) tokens more
      refine ⟨fun there => ?_, passed, fun alone => ?_⟩
      · rw [traced_true, traced_true, kept there]
      · obtain ⟨values, noted, levels⟩ := padded alone
        rw [traced_true, traced_true, values, noted, levels]
        exact ⟨rfl, rfl, rfl⟩
  attempt rule := by
    refine ⟨forward_compositional.attempt rule.forward, fun tracing level tokens more => ?_⟩
    obtain ⟨kept, passed, padded⟩ := rule.extended tracing level tokens more
    rw [attempt_eq, attempt_eq]
    refine ⟨fun there => ?_, passed, fun alone => ?_⟩
    · rw [kept there]
    · obtain ⟨values, noted, levels⟩ := padded alone
      simp only [values, noted, levels, and_self]

end Rule

open Rule

/-! ## Statements in front of an end of the text -/

/-- What a program leaves unread. -/
def unread (tokens : List Token) : List Token :=
  (program tokens.length false 0 tokens).rest

/-- Every statement, read or given up, ends on one of the tokens. -/
inductive Finishes : List Token → Prop
  | nil : Finishes []
  | statement {tokens left : List Token} {last : Token} {read : Option Stmt} {notes : List Note}
      (run : attempt (statement (expression tokens.length)) false 0 tokens =
        ⟨some read, last :: left, notes, 0⟩)
      (finishes : Finishes left) : Finishes tokens

variable {tokens left more : List Token}

theorem begins_append (begins : (tokens.headD .eof).kind ≠ .eof) (more : List Token) :
    ((tokens ++ .eof :: more).headD .eof).kind ≠ .eof := by
  rwa [headD_append]

theorem attempt_within (bound : Nat) {read : Option Stmt} {notes : List Note}
    (run : attempt (statement (expression bound)) false 0 tokens = ⟨some read, left, notes, 0⟩) :
    left <:+ tokens := by
  have within := forward_compositional.attempt
    (Grammatical.statement.holds forward_compositional bound) false 0 tokens
  rwa [run] at within

/-- How a statement gets on in front of an end of the text, the bound being the number of all the
tokens. -/
theorem attempt_extended (tokens more : List Token) :
    Extended more (attempt (statement (expression tokens.length)) false 0 tokens)
      (attempt (statement (expression (tokens ++ .eof :: more).length)) false 0
        (tokens ++ .eof :: more)) := by
  have covered : tokens.length ≤ (tokens ++ .eof :: more).length := by simp
  have alike := statement_alike (expression_alike (Nat.le_refl _) covered) (Nat.le_refl _)
  rw [alike.attempt.same]
  have attempts := extends_compositional.attempt
    (Grammatical.statement.holds extends_compositional (tokens ++ .eof :: more).length)
  exact attempts.extended false 0 tokens more

theorem unread_of_attempt {read : Option Stmt} {notes : List Note}
    (begins : (tokens.headD .eof).kind ≠ .eof)
    (run : attempt (statement (expression tokens.length)) false 0 tokens =
      ⟨some read, left, notes, 0⟩) : unread tokens = unread left.tail := by
  obtain ⟨ss, rest, notes', behind⟩ := program_some false 0 left.tail
  rw [unread, unread, program_of_attempt begins run behind, behind]

theorem unread_within (tokens : List Token) : unread tokens <:+ tokens :=
  (Grammatical.statements [] tokens.length).holds forward_compositional tokens.length false 0
    tokens

theorem program_extended (tokens more : List Token) :
    Extended more (program tokens.length false 0 tokens)
      (program (tokens ++ .eof :: more).length false 0 (tokens ++ .eof :: more)) := by
  have covered : tokens.length ≤ (tokens ++ .eof :: more).length := by simp
  have programs := (Grammatical.statements [] (tokens ++ .eof :: more).length).holds
    extends_compositional (tokens ++ .eof :: more).length
  exact statements_eq_program covered covered false 0 ▸ programs.extended false 0 tokens more

/-- If every statement ends before it, an end of the text ends the program, and nothing behind it
matters. -/
theorem Finishes.program_eq (finishes : Finishes tokens) (inside : .eof ∉ tokens) :
    ∃ ss notes, program tokens.length false 0 tokens = ⟨some ss, [], notes, 0⟩ ∧
      ∀ more, program (tokens ++ .eof :: more).length false 0 (tokens ++ .eof :: more) =
        ⟨some ss, .eof :: more, notes, 0⟩ := by
  induction finishes with
  | nil => exact ⟨[], [], rfl, fun _ => rfl⟩
  | @statement tokens left last read notes run _ ih =>
    have within := attempt_within _ run
    have begins := begins_of_not_mem inside
      (List.ne_nil_of_mem (within.subset (List.mem_cons_self ..))) .eof
    obtain ⟨ss, notes', ended, ended'⟩ :=
      ih fun there => inside (within.subset (List.mem_cons_of_mem _ there))
    refine ⟨_, _, program_of_attempt begins run ended, fun more => ?_⟩
    have kept := (attempt_extended tokens more).kept (by rw [run]; exact List.cons_ne_nil _ _)
    rw [run] at kept
    exact program_of_attempt (begins_append begins more) kept (ended' more)

/-- A statement that does not end before an end of the text is stepped over together with that. -/
theorem finishes_or_unread_within (inside : .eof ∉ tokens) (more : List Token) :
    Finishes tokens ∨ unread (tokens ++ .eof :: more) <:+ more := by
  induction size : tokens.length using Nat.strongRecOn generalizing tokens with
  | ind size ih =>
    subst size
    by_cases empty : tokens = []
    · exact .inl (empty ▸ .nil)
    have begins := begins_of_not_mem inside empty .eof
    have extended := attempt_extended tokens more
    obtain ⟨read, left, notes, run⟩ := attempt_restored tokens.length false 0 tokens
    obtain ⟨read', left', notes', run'⟩ :=
      attempt_restored (tokens ++ .eof :: more).length false 0 (tokens ++ .eof :: more)
    have goes := unread_of_attempt (begins_append begins more) run'
    rw [run, run'] at extended
    cases left with
    | nil =>
      have passed : left' <:+ .eof :: more := extended.passed rfl
      rw [goes]
      exact .inr ((unread_within left'.tail).trans (suffix_tail passed))
    | cons last left =>
      have within := attempt_within _ run
      have fewer : left.length < tokens.length := within.length_le
      injection extended.kept (List.cons_ne_nil last left) with _ kept _ _
      rw [goes, kept]
      rcases ih left.length fewer
        (fun there => inside (within.subset (List.mem_cons_of_mem _ there))) rfl with
        finishes | passed
      · exact .inl (.statement run finishes)
      · exact .inr passed

/-- Every statement ends before the end of the text if no block is left open and no expression is
missing at a closing brace or at the end. -/
theorem finishes_of_closing (closing : Closing tokens) (inside : .eof ∉ tokens)
    (found : ∀ kind ∈ [TokenKind.rbrace, TokenKind.eof],
      .noExpression kind ∉ (Parse.ofTokens tokens).diagnostics) : Finishes tokens := by
  have closed : Closed [.rbrace, .eof] tokens := ⟨closing, fun _ => List.mem_cons_self ..⟩
  rcases program_boundary .eof (.inr (by decide)) closed inside false 0 with
    missing | ⟨ss, notes, reads⟩
  · -- The end of the text that is written there notes no more than the end of the tokens.
    have noted : (program (tokens ++ [Token.eof]).length false 0 (tokens ++ [Token.eof])).notes =
        (Parse.ofTokens tokens).notes := ((program_extended tokens []).padded rfl).2.1
    obtain ⟨kind, member, there⟩ := missing_iff.mp (noted ▸ missing [])
    exact absurd there (found kind member)
  · have run : program (tokens ++ [Token.eof]).length false 0 (tokens ++ [Token.eof]) =
        ⟨some (ss ++ []), [.eof], notes ++ [], 0⟩ := reads rfl
    refine (finishes_or_unread_within inside []).resolve_right fun within => ?_
    rw [unread, run] at within
    exact nomatch List.suffix_nil.mp within

/-- An end of the text ends a program exactly if every statement before it ends before it; then the
program is what stands before it, whatever stands behind it. -/
theorem ofTokens_eof (inside : .eof ∉ tokens) :
    (∀ more, unread (tokens ++ .eof :: more) = .eof :: more ↔ Finishes tokens) ∧
    (Finishes tokens →
      ∀ more, Parse.ofTokens (tokens ++ .eof :: more) = Parse.ofTokens tokens) ∧
    (Closing tokens → (∀ kind ∈ [TokenKind.rbrace, TokenKind.eof],
      .noExpression kind ∉ (Parse.ofTokens tokens).diagnostics) → Finishes tokens) := by
  refine ⟨fun more => ⟨fun ended => ?_, fun finishes => ?_⟩, fun finishes more => ?_,
    fun closing found => finishes_of_closing closing inside found⟩
  · refine (finishes_or_unread_within inside more).resolve_right fun within => ?_
    rw [ended] at within
    exact Nat.not_succ_le_self _ within.length_le
  · obtain ⟨ss, notes, _, reads⟩ := finishes.program_eq inside
    rw [unread, reads]
  · obtain ⟨ss, notes, alone, reads⟩ := finishes.program_eq inside
    rw [Parse.ofTokens_of_program (reads more), Parse.ofTokens_of_program alone]

/-- Behind `fn() { let }; )` and an end of the text nothing is read. -/
theorem ofTokens_eof_of_damage :
    .eof ∉ [Token.fnWord, .lparen, .rparen, .lbrace, .letWord, .rbrace, .semicolon, .rparen] ∧
    Closing [.fnWord, .lparen, .rparen, .lbrace, .letWord, .rbrace, .semicolon, .rparen] ∧
    (Parse.ofTokens ([.fnWord, .lparen, .rparen, .lbrace, .letWord, .rbrace, .semicolon,
      .rparen] ++ .eof :: [.int "1"])).program.statements =
      [.expr .fnWord (.fn [] (.mk .lbrace []))] ∧
    (Parse.ofTokens ([.fnWord, .lparen, .rparen, .lbrace, .letWord, .rbrace, .semicolon,
      .rparen] ++ .eof :: [.int "1"])).diagnostics =
      [.unexpected .ident .rbrace, .noExpression .rparen] := by
  have inside : .eof ∉ [Token.fnWord, .lparen, .rparen, .lbrace, .letWord, .rbrace, .semicolon,
    .rparen] := by decide
  have matched : Matched [Token.fnWord, .lparen, .rparen, .lbrace, .letWord, .rbrace, .semicolon,
    .rparen] := by decide
  obtain ⟨_, ended, finishes⟩ := ofTokens_eof inside
  have same := ended (finishes matched.closing (by decide)) [.int "1"]
  rw [same]
  exact ⟨inside, matched.closing, rfl, rfl⟩

/-- With `let x =` the end of the text is stepped over where its value is missing, and the `1` that
stands behind it is read. -/
theorem end_of_text_is_stepped_over :
    ¬ ∀ tokens more : List Token, .eof ∉ tokens →
      (Parse.ofTokens (tokens ++ .eof :: more)).program.statements =
          (Parse.ofTokens tokens).program.statements ∧
        (Parse.ofTokens (tokens ++ .eof :: more)).diagnostics =
          (Parse.ofTokens tokens).diagnostics := by
  intro always
  have same := (always [.letWord, .ident "x", .assign] [.int "1"] (by decide)).1
  have short : (Parse.ofTokens [.letWord, .ident "x", .assign]).program.statements = [] := rfl
  have long : (Parse.ofTokens [.letWord, .ident "x", .assign, .eof, .int "1"]).program.statements =
      [.expr (.int "1") (.int 1)] := rfl
  rw [short, List.cons_append, List.cons_append, List.cons_append, List.nil_append, long] at same
  exact nomatch same

end TreeWalk
