import TreeWalk.Proofs.Bound
import TreeWalk.Proofs.Composed

/-!
# Reading moves on

Reading goes round in five ways: over the commas of two lists, over statements, over the operators
behind an operand, and from an expression to the ones inside it.  Each round leaves at least one
token behind that is not the end of the text, whether or not the text is well formed, and although
the cursor stands still at the end.  So each of them ends.

Results:
1. what a rule does depends on the rule for nested expressions only from where its pace lets it
   consult that (`Composed.agree`), and no rule moves the cursor back (`expression_forward`);
2. a round depends on the further ones only where the cursor has passed a token (`MovesOn`: one
   lemma for each way to go round);
3. hence going round without a bound can mean one thing only, and that is what a bound as large as
   the number of tokens yields (`Ends`).
-/

namespace TreeWalk

open Grammar

/-! ## Tokens that are left -/

/-- The number of tokens that are not the end of the text. -/
def proper (tokens : List Token) : Nat :=
  tokens.countP (· ≠ .eof)

theorem proper_le {left tokens : List Token} (within : left <:+ tokens) :
    proper left ≤ proper tokens :=
  within.countP_le

theorem proper_of_head {tokens : List Token} (there : tokens.headD .eof ≠ .eof) :
    proper tokens = proper tokens.tail + 1 := by
  cases tokens with
  | nil => exact absurd rfl there
  | cons first tokens => exact List.countP_cons_of_pos (decide_eq_true there)

theorem proper_lt {rest tokens : List Token} (there : tokens.headD .eof ≠ .eof)
    (behind : rest <:+ tokens.tail) : proper rest < proper tokens := by
  rw [proper_of_head there]
  exact Nat.lt_succ_of_le (proper_le behind)

/-- Behind the token after the one under the cursor there are fewer tokens. -/
theorem proper_lt_of_next {rest tokens : List Token} (there : tokens.tail.headD .eof ≠ .eof)
    (behind : rest <:+ tokens.tail.tail) : rest <:+ tokens ∧ proper rest < proper tokens := by
  have within := List.tail_suffix tokens
  exact ⟨behind.trans ((List.tail_suffix tokens.tail).trans within),
    Nat.lt_of_lt_of_le (proper_lt there behind) (proper_le within)⟩

theorem suffix_tail {left tokens : List Token} (within : left <:+ tokens) :
    left.tail <:+ tokens.tail := by
  cases tokens with
  | nil =>
    obtain rfl := List.suffix_nil.mp within
    exact List.suffix_rfl
  | cons first tokens =>
    rcases List.suffix_cons_iff.mp within with rfl | within
    · exact List.suffix_rfl
    · exact (List.tail_suffix left).trans within

/-! ## Rules that agree -/

namespace Rule

variable {α β : Type}

/-- Both rules do the same with the tokens and do not move the cursor back.  If they have a result,
the cursor has come as far as `left`. -/
structure Agree (rule rule' : Rule α) (tokens left : List Token) : Prop where
  same : ∀ tracing level, rule tracing level tokens = rule' tracing level tokens
  within : ∀ tracing level, (rule tracing level tokens).rest <:+ tokens
  reaches : ∀ tracing level,
    (rule tracing level tokens).value.isSome → (rule tracing level tokens).rest <:+ left

namespace Agree

variable {rule rule' : Rule α} {next next' : α → Rule β} {tokens mid left left' : List Token}

theorem ended (same : ∀ tracing level, rule tracing level tokens = rule' tracing level tokens)
    (stays : ∀ tracing level, (rule tracing level tokens).rest = tokens)
    (within : tokens <:+ left) :
    Agree rule rule' tokens left :=
  ⟨same, fun tracing level => (stays tracing level).symm ▸ List.suffix_rfl,
    fun tracing level _ => (stays tracing level).symm ▸ within⟩

theorem pure (a : α) (within : tokens <:+ left) :
    Agree (Pure.pure a) (Pure.pure a) tokens left :=
  ended (fun _ _ => rfl) (fun _ _ => rfl) within

theorem fail (diagnostic : Diagnostic) :
    Agree (Rule.fail diagnostic : Rule α) (Rule.fail diagnostic) tokens left :=
  ⟨fun _ _ => rfl, fun _ _ => List.suffix_rfl, fun _ _ => nofun⟩

theorem mono (agree : Agree rule rule' tokens left) (further : left <:+ left') :
    Agree rule rule' tokens left' :=
  ⟨agree.same, agree.within,
    fun tracing level done => (agree.reaches tracing level done).trans further⟩

theorem bind (first : Agree rule rule' tokens mid)
    (second : ∀ a rest, rest <:+ mid → rest <:+ tokens → Agree (next a) (next' a) rest left) :
    Agree (rule >>= next) (rule' >>= next') tokens left := by
  have behind tracing level a (done : (rule tracing level tokens).value = some a) :=
    second a _ (first.reaches tracing level (done ▸ rfl)) (first.within tracing level)
  refine ⟨fun tracing level => ?_, fun tracing level => ?_, fun tracing level => ?_⟩
  all_goals rw [bind_apply]
  · rw [bind_apply, ← first.same tracing level]
    cases done : (rule tracing level tokens).value with
    | none => rfl
    | some a =>
      simp only [(behind tracing level a done).same tracing (rule tracing level tokens).level]
  · cases done : (rule tracing level tokens).value with
    | none => exact first.within tracing level
    | some a =>
      exact ((behind tracing level a done).within tracing _).trans (first.within tracing level)
  · cases done : (rule tracing level tokens).value with
    | none => exact nofun
    | some a => exact (behind tracing level a done).reaches tracing _

/-- What both rules begin with fails at once. -/
theorem bind_of_fails {notes : List Note}
    (fails : ∀ tracing level, rule tracing level tokens = ⟨none, tokens, notes, level⟩)
    (fails' : ∀ tracing level, rule' tracing level tokens = ⟨none, tokens, notes, level⟩) :
    Agree (rule >>= next) (rule' >>= next') tokens left := by
  have ended tracing level := bind_of_none (fails tracing level) next
  have ended' tracing level := bind_of_none (fails' tracing level) next'
  refine ⟨fun tracing level => (ended tracing level).trans (ended' tracing level).symm,
    fun tracing level => (ended tracing level).symm ▸ List.suffix_rfl, fun tracing level done => ?_⟩
  rw [ended] at done
  cases done

/-- What both rules begin with only moves the cursor. -/
theorem moved {whole whole' last last' : Rule β} {tokens' : List Token}
    (step : ∀ tracing level, whole tracing level tokens = last tracing level tokens')
    (step' : ∀ tracing level, whole' tracing level tokens = last' tracing level tokens')
    (within : tokens' <:+ tokens)
    (agree : Agree last last' tokens' left) : Agree whole whole' tokens left := by
  refine ⟨fun tracing level => ?_, fun tracing level => ?_, fun tracing level => ?_⟩
  all_goals rw [step]
  · rw [step', agree.same]
  · exact (agree.within tracing level).trans within
  · exact agree.reaches tracing level

theorem current {next next' : Token → Rule β}
    (agree : Agree (next (tokens.headD .eof)) (next' (tokens.headD .eof)) tokens left) :
    Agree (Rule.current >>= next) (Rule.current >>= next') tokens left :=
  moved (current_bind · · tokens next) (current_bind · · tokens next') List.suffix_rfl agree

theorem peek {next next' : Token → Rule β}
    (agree : Agree (next (tokens.tail.headD .eof)) (next' (tokens.tail.headD .eof)) tokens left) :
    Agree (Rule.peek >>= next) (Rule.peek >>= next') tokens left :=
  moved (peek_bind · · tokens next) (peek_bind · · tokens next') List.suffix_rfl agree

theorem advance {next next' : Unit → Rule β}
    (agree : Agree (next ()) (next' ()) tokens.tail left) :
    Agree (Rule.advance >>= next) (Rule.advance >>= next') tokens left :=
  moved (advance_bind · · tokens next) (advance_bind · · tokens next') (List.tail_suffix tokens)
    agree

theorem traced (name : RuleName) (agree : Agree rule rule' tokens left) :
    Agree (traced name rule) (traced name rule') tokens left := by
  refine ⟨fun tracing level => traced_congr name rule tracing level tokens agree.same,
    fun tracing level => ?_, fun tracing level => ?_⟩
  all_goals obtain ⟨inside, value, rest⟩ := exists_traced name rule tracing level tokens
  · rw [rest]
    exact agree.within tracing inside
  · rw [value, rest]
    exact agree.reaches tracing inside

theorem attempt (agree : Agree rule rule' tokens left) :
    Agree (attempt rule) (attempt rule') tokens tokens := by
  have within (tracing : Bool) (level : Nat) :
      (Rule.attempt rule tracing level tokens).rest <:+ tokens := by
    rw [Rule.attempt]
    have within := agree.within tracing level
    cases (rule tracing level tokens).value <;> exact within
  refine ⟨fun tracing level => ?_, within, fun tracing level _ => within tracing level⟩
  rw [Rule.attempt, Rule.attempt, agree.same]

end Agree

/-- The rule never moves the cursor back. -/
def Forward (rule : Rule α) : Prop :=
  ∀ tracing level tokens, (rule tracing level tokens).rest <:+ tokens

theorem Forward.agree {rule : Rule α} (forward : rule.Forward) (tokens : List Token) :
    Agree rule rule tokens tokens :=
  ⟨fun _ _ => rfl, fun tracing level => forward tracing level tokens,
    fun tracing level _ => forward tracing level tokens⟩

end Rule

open Rule

/-! ## Where nested expressions begin -/

namespace Pace

/-- The tokens from which nested expressions may begin. -/
def nested : Pace → List Token → List Token
  | atOnce, tokens => tokens
  | later, tokens | onward, tokens => tokens.tail

/-- The tokens that may be left when there is a result. -/
def left : Pace → List Token → List Token
  | atOnce, tokens | later, tokens => tokens
  | onward, tokens => tokens.tail

theorem nested_andThen (pace pace' : Pace) (tokens : List Token) :
    pace.nested tokens <:+ (pace.andThen pace').nested tokens := by
  have behind := List.tail_suffix tokens
  cases pace <;> cases pace' <;> first | exact List.suffix_rfl | exact behind

theorem nested_of_left {pace pace' : Pace} {tokens rest : List Token}
    (within : rest <:+ pace.left tokens) :
    pace'.nested rest <:+ (pace.andThen pace').nested tokens := by
  have behind := (List.tail_suffix rest).trans within
  have shorter (within : rest <:+ tokens) := suffix_tail within
  cases pace <;> cases pace' <;>
    first | exact within | exact behind | exact shorter within

theorem left_of_left {pace pace' : Pace} {tokens rest : List Token}
    (within : rest <:+ pace.left tokens) :
    pace'.left rest <:+ (pace.andThen pace').left tokens := by
  have behind := (List.tail_suffix rest).trans within
  have shorter (within : rest <:+ tokens) := suffix_tail within
  cases pace <;> cases pace' <;>
    first | exact within | exact behind | exact shorter within

end Pace

/-- Two rules for nested expressions agree from some tokens on. -/
def AgreeFrom (expr expr' : Precedence → Rule Expr) (tokens : List Token) : Prop :=
  ∀ context rest, rest <:+ tokens → Agree (expr context) (expr' context) rest rest

theorem AgreeFrom.mono {expr expr' : Precedence → Rule Expr} {tokens tokens' : List Token}
    (agree : AgreeFrom expr expr' tokens) (within : tokens' <:+ tokens) :
    AgreeFrom expr expr' tokens' :=
  fun context rest behind => agree context rest (behind.trans within)

variable {α : Type} {pace : Pace} {rule : (Precedence → Rule Expr) → Rule α}

theorem Composed.agree (composed : Composed pace rule) {expr expr' : Precedence → Rule Expr}
    {tokens : List Token} (nested : AgreeFrom expr expr' (pace.nested tokens)) :
    Agree (rule expr) (rule expr') tokens (pace.left tokens) := by
  induction composed generalizing tokens with
  | nested context => exact nested context tokens List.suffix_rfl
  | pure a => exact Agree.pure a List.suffix_rfl
  | fail diagnostic => exact Agree.fail diagnostic
  | current | peek => exact Agree.ended (fun _ _ => rfl) (fun _ _ => rfl) List.suffix_rfl
  | advance =>
    exact ⟨fun _ _ => rfl, fun _ _ => List.tail_suffix tokens, fun _ _ _ => List.suffix_rfl⟩
  | @bind _ _ pace pace' _ _ _ _ ih ih' =>
    -- Where the first rule leaves the cursor, the second begins, at its own pace.
    refine (ih (nested.mono (pace.nested_andThen pace' tokens))).bind fun a rest within _ => ?_
    exact (ih' a (nested.mono (Pace.nested_of_left within))).mono (Pace.left_of_left within)
  | traced name _ ih => exact (ih nested).traced name
  | attempt _ ih => exact (ih nested).attempt
  | later _ ih => exact (ih nested).mono (List.tail_suffix tokens)
  | atOnce _ ih => exact ih (nested.mono (List.tail_suffix tokens))

/-- No rule moves the cursor back. -/
theorem forward_compositional : Compositional fun _ rule => rule.Forward where
  pure _ _ _ _ := List.suffix_rfl
  fail _ _ _ _ := List.suffix_rfl
  current _ _ _ := List.suffix_rfl
  peek _ _ _ := List.suffix_rfl
  advance _ _ tokens := List.tail_suffix tokens
  bind first second tracing level tokens :=
    ((first.agree tokens).bind fun a rest within _ =>
      ((second a).agree rest).mono within).within tracing level
  traced name _ forward tracing level tokens :=
    ((forward.agree tokens).traced name).within tracing level
  attempt forward tracing level tokens := (forward.agree tokens).attempt.within tracing level

theorem expression_forward (bound : Nat) (context : Precedence) :
    (expression bound context).Forward :=
  expression_holds forward_compositional bound context

theorem Composed.agree_self (composed : Composed pace rule) {expr : Precedence → Rule Expr}
    (forward : ∀ context, (expr context).Forward) (tokens : List Token) :
    Agree (rule expr) (rule expr) tokens (pace.left tokens) :=
  composed.agree fun context rest _ => (forward context).agree rest

/-! ## Rounds -/

/-- One round over the parameters behind a comma; `again` reads the further ones. -/
def paramsRound (again : Unit → Rule (List Ident)) (_ : Unit) : Rule (List Ident) := do
  let next ← peek
  if next.kind = .comma then do
    advance
    let param ← name
    let params ← again ()
    pure (param :: params)
  else pure []

section

variable (expr : Precedence → Rule Expr)

/-- One round over the arguments behind a comma. -/
def argsRound (again : Unit → Rule (List Expr)) (_ : Unit) : Rule (List Expr) := do
  let next ← peek
  if next.kind = .comma then do
    advance
    advance
    let arg ← expr .lowest
    let args ← again ()
    pure (arg :: args)
  else pure []

/-- One round over statements. -/
def statementsRound (ends : List TokenKind) (again : Unit → Rule (List Stmt)) (_ : Unit) :
    Rule (List Stmt) := do
  let first ← current
  if first.kind ∈ TokenKind.eof :: ends then pure []
  else do
    let read ← attempt (statement expr)
    advance
    let more ← again ()
    pure (read.toList ++ more)

/-- One round over the operators and argument lists behind an operand. -/
def extensionsRound (context : Precedence) (bound : Nat) (again : Expr → Rule Expr) (left : Expr) :
    Rule Expr := do
  let next ← peek
  if context < .ofKind next.kind then do
    let longer ← extend expr bound left next
    again longer
  else pure left

end

/-- An expression, `again` reading the ones inside it. -/
def expressionRound (bound : Nat) (again : Precedence → Rule Expr) (context : Precedence) :
    Rule Expr :=
  traced .expression do
    let left ← operand again bound
    extensions again context bound bound left

variable {ι : Type}

/-- What a round does depends on the further rounds only where the cursor has passed a token that is
not the end of the text. -/
def MovesOn (round : (ι → Rule α) → ι → Rule α) : Prop :=
  ∀ {again again' : ι → Rule α} {tokens : List Token},
    (∀ i rest, rest <:+ tokens → proper rest < proper tokens →
      Agree (again i) (again' i) rest rest) →
    ∀ i, Agree (round again i) (round again' i) tokens tokens

theorem ne_eof_of_kind {token : Token} {kind : TokenKind} (same : token.kind = kind)
    (other : kind ≠ .eof) : token ≠ .eof := by
  rintro rfl
  exact other same.symm

theorem ne_eof_of_not_mem {token : Token} {ends : List TokenKind}
    (goes : token.kind ∉ TokenKind.eof :: ends) : token ≠ .eof := by
  rintro rfl
  exact goes (List.mem_cons_self ..)

theorem paramsRound_movesOn : MovesOn paramsRound := by
  intro again again' tokens agree _
  refine Agree.peek ?_
  split
  · next comma =>
    refine Agree.advance ((name_composed.agree_self (expression_forward 0) _).bind
      fun param rest within _ => ?_)
    obtain ⟨left, fewer⟩ := proper_lt_of_next (ne_eof_of_kind comma nofun) within
    refine (agree () rest left fewer).bind fun params rest' left' _ => ?_
    exact Agree.pure _ (left'.trans left)
  · exact Agree.pure _ List.suffix_rfl

section

variable {expr : Precedence → Rule Expr} (forward : ∀ context, (expr context).Forward)

include forward

theorem argsRound_movesOn : MovesOn (argsRound expr) := by
  intro again again' tokens agree _
  refine Agree.peek ?_
  split
  · next comma =>
    refine Agree.advance (Agree.advance ?_)
    refine ((forward .lowest).agree _).bind fun arg rest within _ => ?_
    obtain ⟨left, fewer⟩ := proper_lt_of_next (ne_eof_of_kind comma nofun) within
    refine (agree () rest left fewer).bind fun args rest' left' _ => ?_
    exact Agree.pure _ (left'.trans left)
  · exact Agree.pure _ List.suffix_rfl

theorem statementsRound_movesOn (ends : List TokenKind) : MovesOn (statementsRound expr ends) := by
  intro again again' tokens agree _
  refine Agree.current ?_
  split
  · exact Agree.pure _ List.suffix_rfl
  · next goes =>
    refine (statement_composed.agree_self forward tokens).attempt.bind fun read rest within _ => ?_
    have left : rest.tail <:+ tokens := (List.tail_suffix rest).trans within
    have fewer := proper_lt (ne_eof_of_not_mem goes) (suffix_tail within)
    refine Agree.advance ((agree () rest.tail left fewer).bind fun more rest' left' _ => ?_)
    exact Agree.pure _ (left'.trans left)

/-- What extends an operand is at least one token long. -/
theorem extend_agree (bound : Nat) (left : Expr) (next : Token) (tokens : List Token) :
    Agree (extend expr bound left next) (extend expr bound left next) tokens tokens.tail.tail := by
  refine Agree.advance ?_
  cases Operator.ofToken? next with
  | some op => exact (infixExpr_composed left op _).agree_self forward _
  | none =>
    refine ((args_composed bound).agree_self forward _).bind fun arguments rest within _ => ?_
    exact Agree.pure _ within

theorem extensionsRound_movesOn (context : Precedence) (bound : Nat) :
    MovesOn (extensionsRound expr context bound) := by
  intro again again' tokens agree left
  refine Agree.peek ?_
  split
  · next tighter =>
    have there : tokens.tail.headD .eof ≠ .eof := by
      intro ended
      rw [ended] at tighter
      exact Precedence.not_lt_lowest context tighter
    refine (extend_agree forward bound left _ tokens).bind fun longer rest within _ => ?_
    obtain ⟨within, fewer⟩ := proper_lt_of_next there within
    exact (agree longer rest within fewer).mono within
  · exact Agree.pure _ List.suffix_rfl

end

/-- No operand begins at the end of the text, so nothing inside it is read there. -/
theorem expressionRound_movesOn (bound : Nat) : MovesOn (expressionRound bound) := by
  intro again again' tokens agree context
  refine Agree.traced .expression ?_
  by_cases there : tokens.headD .eof = .eof
  · have fails (expr : Precedence → Rule Expr) (tracing : Bool) (level : Nat) :
        operand expr bound tracing level tokens =
          ⟨none, tokens, [.diagnostic (.noExpression .eof)], level⟩ := by
      rw [operand, current_bind, there]
      rfl
    exact Agree.bind_of_fails (fails again) (fails again')
  · have nested : AgreeFrom again again' tokens.tail := by
      intro context rest within
      exact agree context rest (within.trans (List.tail_suffix tokens)) (proper_lt there within)
    refine ((operand_composed bound).agree nested).bind fun left rest within _ => ?_
    exact ((extensions_composed context bound bound left).agree
      (nested.mono (suffix_tail within))).mono within

/-! ## Ends -/

/-- Going round ends: each round passes a token, a bound as large as the number of tokens makes no
difference to what a round does, and nothing else does what the rounds say. -/
structure Ends (round : Nat → (ι → Rule α) → ι → Rule α) (run : Nat → ι → Rule α) : Prop where
  unrolls : ∀ bound, run (bound + 1) = round bound (run bound)
  moves : ∀ bound, MovesOn (round bound)
  settles : ∀ {bound : Nat} {tokens : List Token}, tokens.length ≤ bound → ∀ i tracing level,
    run bound i tracing level tokens = round bound (run bound) i tracing level tokens
  only : ∀ {bound : Nat} {again : ι → Rule α},
    (∀ i tracing level tokens,
      again i tracing level tokens = round bound again i tracing level tokens) →
    ∀ {tokens : List Token}, tokens.length ≤ bound → ∀ i tracing level,
      again i tracing level tokens = run bound i tracing level tokens

/-- A bound that covers the tokens covers them with one round more. -/
def Covers (run : Nat → ι → Rule α) : Prop :=
  ∀ {bound : Nat} {tokens : List Token}, tokens.length ≤ bound → ∀ i tracing level,
    run bound i tracing level tokens = run (bound + 1) i tracing level tokens

theorem Ends.of_covers {round : Nat → (ι → Rule α) → ι → Rule α} {run : Nat → ι → Rule α}
    (unrolls : ∀ bound, run (bound + 1) = round bound (run bound))
    (moves : ∀ bound, MovesOn (round bound)) (forward : ∀ bound i, (run bound i).Forward)
    (covers : Covers run) : Ends round run := by
  have settles {bound : Nat} {tokens : List Token} (enough : tokens.length ≤ bound) (i : ι)
      (tracing : Bool) (level : Nat) :
      run bound i tracing level tokens = round bound (run bound) i tracing level tokens := by
    rw [covers enough, unrolls]
  refine ⟨unrolls, moves, settles, ?_⟩
  intro bound again solves tokens enough
  -- Each round passes a token, so the induction is on the number of those that are left.
  induction size : proper tokens using Nat.strongRecOn generalizing tokens with
  | ind size ih =>
    subst size
    intro i tracing level
    rw [solves, settles enough]
    refine (moves bound (fun j rest within fewer => ?_) i).same tracing level
    have same := ih _ fewer (Nat.le_trans within.length_le enough) rfl j
    refine ⟨same, fun tracing level => ?_, fun tracing level _ => ?_⟩
    all_goals
      rw [same tracing level]
      exact forward bound j tracing level rest

theorem covers_of_movesOn {round : (ι → Rule α) → ι → Rule α} {run : Nat → ι → Rule α}
    (unrolls : ∀ bound, run (bound + 1) = round (run bound)) (moves : MovesOn round)
    (forward : ∀ bound i, (run bound i).Forward)
    (ended : ∀ i tracing level, run 0 i tracing level [] = run 1 i tracing level []) :
    Covers run := by
  intro bound
  induction bound with
  | zero =>
    intro tokens enough
    obtain rfl := List.length_eq_zero_iff.mp (Nat.le_zero.mp enough)
    exact ended
  | succ bound ih =>
    intro tokens enough i tracing level
    rw [unrolls, unrolls]
    refine (moves (fun j rest within fewer => ?_) i).same tracing level
    -- A token has been passed, so the rest is not the whole list.
    have shorter : rest.length < tokens.length := by
      refine Nat.lt_of_le_of_ne within.length_le fun same => ?_
      rw [within.eq_of_length same] at fewer
      exact Nat.lt_irrefl _ fewer
    have covered : rest.length ≤ bound := Nat.le_of_lt_succ (Nat.lt_of_lt_of_le shorter enough)
    exact ⟨ih covered j, fun tracing level => forward bound j tracing level rest,
      fun tracing level _ => forward bound j tracing level rest⟩

theorem Ends.of_movesOn {round : (ι → Rule α) → ι → Rule α} {run : Nat → ι → Rule α}
    (unrolls : ∀ bound, run (bound + 1) = round (run bound)) (moves : MovesOn round)
    (forward : ∀ bound i, (run bound i).Forward)
    (ended : ∀ i tracing level, run 0 i tracing level [] = run 1 i tracing level []) :
    Ends (fun _ => round) run :=
  .of_covers unrolls (fun _ => moves) forward (covers_of_movesOn unrolls moves forward ended)

theorem moreParams_ends : Ends (fun _ => paramsRound) fun bound _ => moreParams bound :=
  .of_movesOn (fun _ => rfl) paramsRound_movesOn
    (fun bound _ => (moreParams_composed bound).holds forward_compositional (expression_forward 0))
    fun _ _ _ => rfl

section

variable {expr : Precedence → Rule Expr} (forward : ∀ context, (expr context).Forward)

include forward

theorem moreArgs_ends : Ends (fun _ => argsRound expr) fun bound _ => moreArgs expr bound :=
  .of_movesOn (fun _ => rfl) (argsRound_movesOn forward)
    (fun bound _ => (moreArgs_composed bound).holds forward_compositional forward)
    fun _ _ _ => rfl

theorem statements_ends (ends : List TokenKind) :
    Ends (fun _ => statementsRound expr ends) fun bound _ => statements expr ends bound :=
  .of_movesOn (fun _ => rfl) (statementsRound_movesOn forward ends)
    (fun bound _ => (statements_composed ends bound).holds forward_compositional forward)
    fun _ tracing level =>
      (statements_nil ends 0 tracing level).trans (statements_nil ends 1 tracing level).symm

theorem extensions_ends (context : Precedence) (bound : Nat) :
    Ends (fun _ => extensionsRound expr context bound) (extensions expr context bound) :=
  .of_movesOn (fun _ => rfl) (extensionsRound_movesOn forward context bound)
    (fun steps left =>
      (extensions_composed context bound steps left).holds forward_compositional forward)
    fun left tracing level =>
      (extensions_last (Nat.zero_le _) context bound 0 left tracing level).trans
        (extensions_last (Nat.zero_le _) context bound 1 left tracing level).symm

end

theorem expression_ends : Ends expressionRound expression :=
  .of_covers (fun _ => rfl) expressionRound_movesOn expression_forward
    fun enough context tracing level =>
      (expression_alike enough (Nat.le_succ_of_le enough) context (Nat.le_refl _)).same tracing
        level

end TreeWalk
