import TreeWalk.Proofs.Run

/-!
# The bound does not matter

Rules are written for a bound on the number of tokens that are left.  Whatever the tokens are, and
however wrong, all bounds that are large enough make a rule do the same.

Results:
1. one lemma for each way to build a rule, for two versions of its parts (`Rule.Alike.bind` and so
   on);
2. every rule does the same with all bounds that cover the tokens: one lemma for each rule,
   collected by an induction on the number of tokens (`expression_alike`), and hence a program is
   read the same (`statements_eq_program`).
-/

namespace TreeWalk

open Grammar

namespace Rule

variable {α β : Type}

/-- Both rules do the same with the tokens, whether or not there is a trace, and leave at most so
many of them. -/
structure Alike (rule rule' : Rule α) (tokens : List Token) (limit : Nat) : Prop where
  same : ∀ tracing level, rule tracing level tokens = rule' tracing level tokens
  left : ∀ tracing level, (rule tracing level tokens).rest.length ≤ limit

namespace Alike

variable {rule rule' : Rule α} {next next' : α → Rule β} {tokens : List Token} {mid limit : Nat}

theorem pure (a : α) (short : tokens.length ≤ limit) :
    Alike (Pure.pure a) (Pure.pure a) tokens limit :=
  ⟨fun _ _ => rfl, fun _ _ => short⟩

theorem fail (diagnostic : Diagnostic) (short : tokens.length ≤ limit) :
    Alike (Rule.fail diagnostic : Rule α) (Rule.fail diagnostic) tokens limit :=
  ⟨fun _ _ => rfl, fun _ _ => short⟩

/-- Both rules are done at once. -/
theorem ended {a : α}
    (done : ∀ tracing level, rule tracing level tokens = ⟨some a, tokens, [], level⟩)
    (done' : ∀ tracing level, rule' tracing level tokens = ⟨some a, tokens, [], level⟩) :
    Alike rule rule' tokens tokens.length :=
  ⟨fun tracing level => (done tracing level).trans (done' tracing level).symm, fun tracing level =>
    Nat.le_of_eq (by rw [done tracing level])⟩

theorem mono (alike : Alike rule rule' tokens mid) (within : mid ≤ limit) :
    Alike rule rule' tokens limit :=
  ⟨alike.same, fun tracing level => Nat.le_trans (alike.left tracing level) within⟩

theorem bind (first : Alike rule rule' tokens mid) (within : mid ≤ limit)
    (second : ∀ a rest, rest.length ≤ mid → Alike (next a) (next' a) rest limit) :
    Alike (rule >>= next) (rule' >>= next') tokens limit := by
  refine ⟨fun tracing level => ?_, fun tracing level => ?_⟩
  · rw [bind_apply, bind_apply, ← first.same tracing level]
    cases (rule tracing level tokens).value with
    | none => rfl
    | some a =>
      have behind :=
        (second a _ (first.left tracing level)).same tracing (rule tracing level tokens).level
      simp only [behind]
  · rw [bind_apply]
    cases (rule tracing level tokens).value with
    | none => exact Nat.le_trans (first.left tracing level) within
    | some a => exact (second a _ (first.left tracing level)).left tracing _

/-- What both rules begin with only moves the cursor. -/
theorem moved {whole whole' last last' : Rule β} {tokens' : List Token}
    (step : ∀ tracing level, whole tracing level tokens = last tracing level tokens')
    (step' : ∀ tracing level, whole' tracing level tokens = last' tracing level tokens')
    (alike : Alike last last' tokens' limit) : Alike whole whole' tokens limit :=
  ⟨fun tracing level => by rw [step, step', alike.same],
    fun tracing level => by rw [step]; exact alike.left tracing level⟩

theorem current {next next' : Token → Rule β}
    (alike : Alike (next (tokens.headD .eof)) (next' (tokens.headD .eof)) tokens limit) :
    Alike (Rule.current >>= next) (Rule.current >>= next') tokens limit :=
  moved (current_bind · · tokens next) (current_bind · · tokens next') alike

theorem peek {next next' : Token → Rule β}
    (alike : Alike (next (tokens.tail.headD .eof)) (next' (tokens.tail.headD .eof)) tokens limit) :
    Alike (Rule.peek >>= next) (Rule.peek >>= next') tokens limit :=
  moved (peek_bind · · tokens next) (peek_bind · · tokens next') alike

theorem advance {next next' : Unit → Rule β}
    (alike : Alike (next ()) (next' ()) tokens.tail limit) :
    Alike (Rule.advance >>= next) (Rule.advance >>= next') tokens limit :=
  moved (advance_bind · · tokens next) (advance_bind · · tokens next') alike

theorem expect {kind : TokenKind} {next next' : Unit → Rule β} (short : tokens.length ≤ limit)
    (alike : Alike (next ()) (next' ()) tokens.tail limit) :
    Alike (Rule.expect kind >>= next) (Rule.expect kind >>= next') tokens limit := by
  by_cases comes : (tokens.tail.headD .eof).kind = kind
  · exact moved (expect_bind · · tokens comes next) (expect_bind · · tokens comes next') alike
  · have fails tracing level := expect_fails tracing level tokens comes
    refine ⟨fun tracing level => ?_, fun tracing level => ?_⟩
    · rw [bind_of_none (fails tracing level), bind_of_none (fails tracing level)]
    · rw [bind_of_none (fails tracing level)]
      exact short

theorem skip {kind : TokenKind} {next next' : Unit → Rule β}
    (alike : ∀ rest, rest.length ≤ tokens.length → Alike (next ()) (next' ()) rest limit) :
    Alike (Rule.skip kind >>= next) (Rule.skip kind >>= next') tokens limit := by
  refine moved (skip_bind · · tokens kind next) (skip_bind · · tokens kind next') (alike _ ?_)
  split
  · rw [List.length_tail]
    exact Nat.sub_le _ _
  · exact Nat.le_refl _

theorem traced (name : RuleName) (alike : Alike rule rule' tokens limit) :
    Alike (traced name rule) (traced name rule') tokens limit := by
  refine ⟨fun tracing level => traced_congr name rule tracing level tokens alike.same,
    fun tracing level => ?_⟩
  obtain ⟨inside, _, rest⟩ := exists_traced name rule tracing level tokens
  rw [rest]
  exact alike.left tracing inside

theorem attempt (alike : Alike rule rule' tokens limit) :
    Alike (attempt rule) (attempt rule') tokens limit := by
  refine ⟨fun tracing level => ?_, fun tracing level => ?_⟩
  · rw [Rule.attempt, Rule.attempt, alike.same]
  · have left := alike.left tracing level
    rw [Rule.attempt]
    cases (rule tracing level tokens).value <;> exact left

end Alike

end Rule

open Rule

/-! ## Lists -/

theorem name_alike {tokens : List Token} : Alike name name tokens tokens.length := by
  refine Alike.expect (Nat.le_refl _) (Alike.current (Alike.pure _ ?_))
  rw [List.length_tail]
  exact Nat.sub_le _ _

/-- The loops over commas and operators stop where there is no next token. -/
theorem peek_last {tokens : List Token} (last : tokens.length ≤ 1) :
    tokens.tail.headD .eof = .eof := by
  match tokens, last with
  | [], _ => rfl
  | [_], _ => rfl

theorem moreParams_last {tokens : List Token} (last : tokens.length ≤ 1) (steps : Nat)
    (tracing : Bool) (level : Nat) :
    moreParams steps tracing level tokens = ⟨some [], tokens, [], level⟩ := by
  cases steps with
  | zero => rfl
  | succ steps =>
    rw [moreParams, peek_bind, peek_last last]
    rfl

theorem moreParams_alike {steps steps' : Nat} {tokens : List Token}
    (enough : tokens.length ≤ steps + 1) (enough' : tokens.length ≤ steps' + 1) :
    Alike (moreParams steps) (moreParams steps') tokens tokens.length := by
  induction steps generalizing steps' tokens with
  | zero => exact .ended (moreParams_last enough _) (moreParams_last enough _)
  | succ steps ih =>
    cases steps' with
    | zero => exact .ended (moreParams_last enough' _) (moreParams_last enough' _)
    | succ steps' =>
      have shorter : tokens.tail.length = tokens.length - 1 := List.length_tail
      refine Alike.peek ?_
      split
      · refine Alike.advance (name_alike.bind (by omega) fun param rest short => ?_)
        refine (@ih steps' rest (by omega) (by omega)).bind (by omega) fun params rest' short' => ?_
        exact Alike.pure _ (by omega)
      · exact Alike.pure _ (Nat.le_refl _)

theorem params_alike {bound bound' : Nat} {tokens : List Token} (enough : tokens.length ≤ bound + 1)
    (enough' : tokens.length ≤ bound' + 1) :
    Alike (params bound) (params bound') tokens tokens.length := by
  have shorter : tokens.tail.length = tokens.length - 1 := List.length_tail
  refine Alike.peek ?_
  split
  · exact Alike.advance (Alike.pure _ (by omega))
  · refine name_alike.bind (Nat.le_refl _) fun param rest short => ?_
    refine (@moreParams_alike bound bound' rest (by omega) (by omega)).bind short
      fun more rest' short' => ?_
    have shorter' : rest'.tail.length = rest'.length - 1 := List.length_tail
    exact Alike.expect (by omega) (Alike.pure _ (by omega))

/-- Two rules for nested expressions do the same with so many tokens. -/
def AlikeUpTo (n : Nat) (expr expr' : Precedence → Rule Expr) : Prop :=
  ∀ context {tokens : List Token}, tokens.length ≤ n →
    Alike (expr context) (expr' context) tokens tokens.length

section

variable {n bound bound' steps steps' : Nat} {expr expr' : Precedence → Rule Expr}
variable {tokens : List Token}

theorem moreArgs_last (last : tokens.length ≤ 1) (steps : Nat) (tracing : Bool) (level : Nat) :
    moreArgs expr steps tracing level tokens = ⟨some [], tokens, [], level⟩ := by
  cases steps with
  | zero => rfl
  | succ steps =>
    rw [moreArgs, peek_bind, peek_last last]
    rfl

theorem moreArgs_alike (alike : AlikeUpTo n expr expr') (short : tokens.length ≤ n)
    (enough : tokens.length ≤ steps + 1) (enough' : tokens.length ≤ steps' + 1) :
    Alike (moreArgs expr steps) (moreArgs expr' steps') tokens tokens.length := by
  induction steps generalizing steps' tokens with
  | zero => exact .ended (moreArgs_last enough _) (moreArgs_last enough _)
  | succ steps ih =>
    cases steps' with
    | zero => exact .ended (moreArgs_last enough' _) (moreArgs_last enough' _)
    | succ steps' =>
      have shorter : tokens.tail.tail.length = tokens.length - 1 - 1 := by
        rw [List.length_tail, List.length_tail]
      refine Alike.peek ?_
      split
      · refine Alike.advance (Alike.advance ?_)
        refine (alike .lowest (by omega)).bind (by omega) fun arg rest left => ?_
        refine (@ih steps' rest (by omega) (by omega) (by omega)).bind (by omega)
          fun args rest' left' => ?_
        exact Alike.pure _ (by omega)
      · exact Alike.pure _ (Nat.le_refl _)

theorem args_alike (alike : AlikeUpTo n expr expr') (short : tokens.length ≤ n) (large : n ≤ bound)
    (large' : n ≤ bound') : Alike (args expr bound) (args expr' bound') tokens tokens.length := by
  have shorter : tokens.tail.length = tokens.length - 1 := List.length_tail
  refine Alike.peek ?_
  split
  · exact Alike.advance (Alike.pure _ (by omega))
  · refine Alike.advance ((alike .lowest (by omega)).bind (by omega) fun arg rest left => ?_)
    refine (@moreArgs_alike n bound bound' expr expr' rest alike (by omega) (by omega)
      (by omega)).bind (by omega) fun more rest' left' => ?_
    have shorter' : rest'.tail.length = rest'.length - 1 := List.length_tail
    exact Alike.expect (by omega) (Alike.pure _ (by omega))

/-! ## Statements -/

theorem letStmt_alike (alike : AlikeUpTo n expr expr') (short : tokens.length ≤ n) :
    Alike (letStmt expr) (letStmt expr') tokens tokens.length := by
  refine Alike.current (name_alike.bind (Nat.le_refl _) fun bound rest left => ?_)
  have shorter : rest.tail.tail.length = rest.length - 1 - 1 := by
    rw [List.length_tail, List.length_tail]
  refine Alike.expect left (Alike.advance ?_)
  refine (alike .lowest (by omega)).bind (by omega) fun value rest' left' => ?_
  exact Alike.skip fun rest'' left'' => Alike.pure _ (by omega)

theorem returnStmt_alike (alike : AlikeUpTo n expr expr') (short : tokens.length ≤ n) :
    Alike (returnStmt expr) (returnStmt expr') tokens tokens.length := by
  have shorter : tokens.tail.length = tokens.length - 1 := List.length_tail
  refine Alike.current (Alike.advance ?_)
  refine (alike .lowest (by omega)).bind (by omega) fun value rest left => ?_
  exact Alike.skip fun rest' left' => Alike.pure _ (by omega)

theorem exprStmt_alike (alike : AlikeUpTo n expr expr') (short : tokens.length ≤ n) :
    Alike (exprStmt expr) (exprStmt expr') tokens tokens.length := by
  refine Alike.traced _ (Alike.current ?_)
  refine (alike .lowest short).bind (Nat.le_refl _) fun value rest left => ?_
  exact Alike.skip fun rest' left' => Alike.pure _ (by omega)

theorem statement_alike (alike : AlikeUpTo n expr expr') (short : tokens.length ≤ n) :
    Alike (statement expr) (statement expr') tokens tokens.length := by
  refine Alike.current ?_
  split
  · exact letStmt_alike alike short
  · exact returnStmt_alike alike short
  · exact exprStmt_alike alike short

theorem statements_nil (ends : List TokenKind) (steps : Nat) (tracing : Bool) (level : Nat) :
    statements expr ends steps tracing level [] = ⟨some [], [], [], level⟩ := by
  cases steps with
  | zero => rfl
  | succ steps =>
    have ending : (([] : List Token).headD .eof).kind ∈ TokenKind.eof :: ends :=
      List.mem_cons_self ..
    rw [statements, current_bind, if_pos ending]
    rfl

theorem statements_alike (alike : AlikeUpTo n expr expr') (ends : List TokenKind)
    (short : tokens.length ≤ n) (enough : tokens.length ≤ steps)
    (enough' : tokens.length ≤ steps') :
    Alike (statements expr ends steps) (statements expr' ends steps') tokens tokens.length := by
  induction steps generalizing steps' tokens with
  | zero =>
    obtain rfl := List.length_eq_zero_iff.mp (Nat.le_zero.mp enough)
    exact .ended (statements_nil ends _) (statements_nil ends _)
  | succ steps ih =>
    cases steps' with
    | zero =>
      obtain rfl := List.length_eq_zero_iff.mp (Nat.le_zero.mp enough')
      exact .ended (statements_nil ends _) (statements_nil ends _)
    | succ steps' =>
      refine Alike.current ?_
      split
      · exact Alike.pure _ (Nat.le_refl _)
      · refine (statement_alike alike short).attempt.bind (Nat.le_refl _) fun read rest left => ?_
        have shorter : rest.tail.length = rest.length - 1 := List.length_tail
        refine Alike.advance ?_
        refine (@ih steps' rest.tail (by omega) (by omega) (by omega)).bind (by omega)
          fun more rest' left' => ?_
        exact Alike.pure _ (by omega)

theorem block_alike (alike : AlikeUpTo n expr expr') (short : tokens.length ≤ n)
    (large : n ≤ bound) (large' : n ≤ bound') :
    Alike (block expr bound) (block expr' bound') tokens tokens.length := by
  have shorter : tokens.tail.length = tokens.length - 1 := List.length_tail
  refine Alike.current (Alike.advance ?_)
  refine (@statements_alike n bound bound' expr expr' tokens.tail alike [.rbrace] (by omega)
    (by omega) (by omega)).bind (by omega) fun inside rest left => ?_
  exact Alike.pure _ (by omega)

/-! ## Expressions -/

theorem integer_alike (text : String) :
    Alike (integer text) (integer text) tokens tokens.length := by
  refine Alike.traced _ ?_
  split
  · exact Alike.pure _ (Nat.le_refl _)
  · exact Alike.fail _ (Nat.le_refl _)

theorem prefixExpr_alike (alike : AlikeUpTo n expr expr') (short : tokens.length ≤ n + 1)
    (op : Operator) : Alike (prefixExpr expr op) (prefixExpr expr' op) tokens tokens.length := by
  have shorter : tokens.tail.length = tokens.length - 1 := List.length_tail
  refine Alike.traced _ (Alike.advance ?_)
  refine (alike .prefixed (by omega)).bind (by omega) fun right rest left => ?_
  exact Alike.pure _ (by omega)

theorem grouped_alike (alike : AlikeUpTo n expr expr') (short : tokens.length ≤ n + 1) :
    Alike (grouped expr) (grouped expr') tokens tokens.length := by
  have shorter : tokens.tail.length = tokens.length - 1 := List.length_tail
  refine Alike.advance ((alike .lowest (by omega)).bind (by omega) fun inner rest left => ?_)
  have shorter' : rest.tail.length = rest.length - 1 := List.length_tail
  exact Alike.expect (by omega) (Alike.pure _ (by omega))

theorem alternative_alike (alike : AlikeUpTo n expr expr') (short : tokens.length ≤ n)
    (large : n ≤ bound) (large' : n ≤ bound') :
    Alike (alternative expr bound) (alternative expr' bound') tokens tokens.length := by
  have shorter : tokens.tail.length = tokens.length - 1 := List.length_tail
  have shorter' : tokens.tail.tail.length = tokens.tail.length - 1 := List.length_tail
  refine Alike.peek ?_
  split
  · refine Alike.advance (Alike.expect (by omega) ?_)
    refine (block_alike alike (by omega) large large').bind (by omega) fun no rest left => ?_
    exact Alike.pure _ (by omega)
  · exact Alike.pure _ (Nat.le_refl _)

theorem conditional_alike (alike : AlikeUpTo n expr expr') (short : tokens.length ≤ n + 1)
    (large : n ≤ bound) (large' : n ≤ bound') :
    Alike (conditional expr bound) (conditional expr' bound') tokens tokens.length := by
  have shorter : tokens.tail.tail.length = tokens.length - 1 - 1 := by
    rw [List.length_tail, List.length_tail]
  refine Alike.expect (Nat.le_refl _) (Alike.advance ?_)
  refine (alike .lowest (by omega)).bind (by omega) fun cond rest left => ?_
  have shorter' : rest.tail.length = rest.length - 1 := List.length_tail
  have shorter'' : rest.tail.tail.length = rest.tail.length - 1 := List.length_tail
  refine Alike.expect (by omega) (Alike.expect (by omega) ?_)
  refine (block_alike alike (by omega) large large').bind (by omega) fun yes rest' left' => ?_
  refine (alternative_alike alike (by omega) large large').bind (by omega)
    fun no rest'' left'' => ?_
  exact Alike.pure _ (by omega)

theorem function_alike (alike : AlikeUpTo n expr expr') (short : tokens.length ≤ n + 1)
    (large : n ≤ bound) (large' : n ≤ bound') :
    Alike (function expr bound) (function expr' bound') tokens tokens.length := by
  have shorter : tokens.tail.length = tokens.length - 1 := List.length_tail
  refine Alike.expect (Nat.le_refl _) ?_
  refine (@params_alike bound bound' tokens.tail (by omega) (by omega)).bind (by omega)
    fun params rest left => ?_
  have shorter' : rest.tail.length = rest.length - 1 := List.length_tail
  refine Alike.expect (by omega) ?_
  refine (block_alike alike (by omega) large large').bind (by omega) fun body rest' left' => ?_
  exact Alike.pure _ (by omega)

theorem operand_alike (alike : AlikeUpTo n expr expr') (short : tokens.length ≤ n + 1)
    (large : n ≤ bound) (large' : n ≤ bound') :
    Alike (operand expr bound) (operand expr' bound') tokens tokens.length := by
  refine Alike.current ?_
  cases tokens.headD .eof with
  | ident _ | str _ | trueWord | falseWord => exact Alike.pure _ (Nat.le_refl _)
  | int text => exact integer_alike text
  | bang => exact prefixExpr_alike alike short .bang
  | minus => exact prefixExpr_alike alike short .minus
  | lparen => exact grouped_alike alike short
  | ifWord => exact conditional_alike alike short large large'
  | fnWord => exact function_alike alike short large large'
  | _ => exact Alike.fail _ (Nat.le_refl _)

/-- What extends an operand begins with the next token. -/
theorem extend_alike (alike : AlikeUpTo n expr expr') (short : tokens.length ≤ n + 1)
    (large : n ≤ bound) (large' : n ≤ bound') (left : Expr) (next : Token) :
    Alike (extend expr bound left next) (extend expr' bound' left next) tokens
      tokens.tail.length := by
  have shorter : tokens.tail.length = tokens.length - 1 := List.length_tail
  have shorter' : tokens.tail.tail.length = tokens.tail.length - 1 := List.length_tail
  refine Alike.advance ?_
  cases Operator.ofToken? next with
  | none =>
    refine (args_alike alike (by omega) large large').bind (Nat.le_refl _) fun args rest left => ?_
    exact Alike.pure _ left
  | some op =>
    refine Alike.traced _ (Alike.advance ?_)
    refine (alike _ (by omega)).bind (by omega) fun right rest left => ?_
    exact Alike.pure _ (by omega)

theorem extensions_last (last : tokens.length ≤ 1) (context : Precedence) (bound steps : Nat)
    (left : Expr) (tracing : Bool) (level : Nat) :
    extensions expr context bound steps left tracing level tokens =
      ⟨some left, tokens, [], level⟩ := by
  cases steps with
  | zero => rfl
  | succ steps =>
    have loose : ¬ context < .ofKind Token.eof.kind := Precedence.not_lt_lowest context
    rw [extensions, peek_bind, peek_last last, if_neg loose]
    rfl

theorem extensions_alike (alike : AlikeUpTo n expr expr') (context : Precedence)
    (short : tokens.length ≤ n + 1) (large : n ≤ bound) (large' : n ≤ bound')
    (enough : tokens.length ≤ steps + 1) (enough' : tokens.length ≤ steps' + 1) (left : Expr) :
    Alike (extensions expr context bound steps left) (extensions expr' context bound' steps' left)
      tokens tokens.length := by
  induction steps generalizing steps' tokens left with
  | zero => exact .ended (extensions_last enough _ _ _ _) (extensions_last enough _ _ _ _)
  | succ steps ih =>
    cases steps' with
    | zero => exact .ended (extensions_last enough' _ _ _ _) (extensions_last enough' _ _ _ _)
    | succ steps' =>
      have shorter : tokens.tail.length = tokens.length - 1 := List.length_tail
      refine Alike.peek ?_
      split
      · refine (extend_alike alike short large large' left _).bind (by omega)
          fun longer rest fewer => ?_
        exact (@ih steps' rest (by omega) (by omega) (by omega) longer).mono (by omega)
      · exact Alike.pure _ (Nat.le_refl _)

end

theorem expression_nil (bound : Nat) (context : Precedence) (tracing : Bool) (level : Nat) :
    expression bound context tracing level [] =
      traced .expression (fail (.noExpression .eof)) tracing level [] := by
  cases bound with
  | zero => rfl
  | succ bound => cases tracing <;> rfl

theorem expression_alike {n bound bound' : Nat} (large : n ≤ bound) (large' : n ≤ bound') :
    AlikeUpTo n (expression bound) (expression bound') := by
  -- A nested expression begins at least one token later, so the induction is on their number.
  induction n generalizing bound bound' with
  | zero =>
    intro context tokens short
    obtain rfl := List.length_eq_zero_iff.mp (Nat.le_zero.mp short)
    have fails := Alike.traced .expression
      (Alike.fail (.noExpression .eof) (Nat.le_refl _) : Alike (fail _ : Rule Expr) (fail _) [] 0)
    exact fails.moved (expression_nil bound context) (expression_nil bound' context)
  | succ n ih =>
    intro context tokens short
    cases bound with
    | zero => exact absurd large (Nat.not_succ_le_zero n)
    | succ bound =>
      cases bound' with
      | zero => exact absurd large' (Nat.not_succ_le_zero n)
      | succ bound' =>
        have large := Nat.le_of_succ_le_succ large
        have large' := Nat.le_of_succ_le_succ large'
        have alike := ih large large'
        refine Alike.traced _ ((operand_alike alike short large large').bind (Nat.le_refl _)
          fun left rest fewer => ?_)
        exact (extensions_alike alike context (by omega) large large' (by omega) (by omega)
          left).mono fewer

/-- The statements of a program are read the same with all bounds that cover its tokens. -/
theorem statements_eq_program {bound steps : Nat} {tokens : List Token}
    (large : tokens.length ≤ bound) (enough : tokens.length ≤ steps) (tracing : Bool)
    (level : Nat) : statements (expression bound) [] steps tracing level tokens =
      program tokens.length tracing level tokens :=
  (statements_alike (expression_alike large (Nat.le_refl _)) [] (Nat.le_refl _) enough
    (Nat.le_refl _)).same tracing level

end TreeWalk
