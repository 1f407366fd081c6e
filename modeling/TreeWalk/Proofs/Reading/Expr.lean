import TreeWalk.Proofs.Reading.Basic

/-!
# Reading expressions

Operands, infix operators and argument lists, one lemma for each way to spell an expression in which
no block stands.
-/

namespace TreeWalk

open Rule Grammar

/-! ## Operands -/

theorem expression_of_operand {bound : Nat} {context : Precedence} {tokens rest : List Token}
    {e : Expr} (done : operand (expression bound) bound false 0 tokens = ⟨some e, rest, [], 0⟩) :
    expression (bound + 1) context false 0 tokens =
      extensions (expression bound) context bound bound e false 0 rest := by
  rw [expression, traced_false, bind_of_clean done]

/-- What is read as an operand is read as an expression of any strength. -/
theorem readsAs_of_operand {strength : Nat} {e : Expr} (e' : Expr) {first : Token}
    {used : List Token} (written : first ≠ .rbrace) (same : e'.bare = e.bare)
    (done : ∀ {bound tokens after}, Supplies tokens used after → tokens.length ≤ bound →
      Spares strength after → ∃ rest, rest.tail = after ∧
        operand (expression bound) bound false 0 (first :: tokens) = ⟨some e', rest, [], 0⟩) :
    ReadsAs (.expr strength e) (first :: used) := by
  refine ⟨e', same, fun {bound context tokens after} supplied short _ spares => ?_⟩
  obtain ⟨tokens, rfl, behind⟩ := (Supplies.cons_iff written).mp supplied
  have shorter : tokens.length ≤ bound := Nat.le_of_succ_le_succ short
  obtain ⟨rest, left, run⟩ := done behind shorter spares
  exact ⟨bound, rest, Nat.le_trans behind.length_le shorter, left, expression_of_operand run⟩

theorem readsAs_leaf {strength : Nat} {e : Expr} {first : Token} (written : first ≠ .rbrace)
    (done : ∀ bound after, operand (expression bound) bound false 0 (first :: after) =
      ⟨some e, first :: after, [], 0⟩) : ReadsAs (.expr strength e) [first] := by
  refine readsAs_of_operand e written rfl fun {bound tokens after} supplied _ _ => ?_
  cases Supplies.nil_iff.mp supplied
  exact ⟨_, rfl, done bound tokens⟩

theorem readsAs_int {text : String} {value : Int64} (reads : Decimal.int64? text = some value) :
    ReadsAs (.expr fullStrength (.int value)) [.int text] := by
  refine readsAs_leaf nofun fun bound after => ?_
  show Grammar.integer text false 0 (.int text :: after) = _
  rw [Grammar.integer, traced_false, reads]
  rfl

theorem readsAs_group {strength : Nat} {e : Expr} {inner : List Token}
    (spelled : Spells (.expr strength e) inner) (reads : ReadsAs (.expr strength e) inner) :
    ReadsAs (.expr fullStrength e) (.lparen :: (inner ++ [.rparen])) := by
  obtain ⟨e', same, done⟩ := reads.lowest spelled
  refine readsAs_of_operand e' (by decide) same fun {bound tokens after} supplied short _ => ?_
  obtain ⟨_, inside, closing⟩ := supplied.split
  obtain ⟨_, rfl, closed⟩ := (Supplies.cons_iff (by decide)).mp closing
  cases Supplies.nil_iff.mp closed
  obtain ⟨rest, left, run⟩ := done inside short (.cons (by decide) (by decide) _)
  refine ⟨rest.tail, by rw [left]; rfl, ?_⟩
  show grouped (expression bound) false 0 (.lparen :: tokens) = _
  rw [grouped, advance_bind]
  show (expression bound .lowest >>= _) false 0 tokens = _
  rw [bind_of_clean run, expect_bind _ _ _ (by rw [left]; rfl)]
  rfl

theorem readsAs_prefixOp {op : Operator} {strength : Nat} {right : Expr} {inner : List Token}
    (sign : op = .bang ∨ op = .minus) (enough : prefixStrength ≤ strength)
    (spelled : Spells (.expr strength right) inner) (reads : ReadsAs (.expr strength right) inner) :
    ReadsAs (.expr prefixStrength (.prefixOp op right)) (op.token :: inner) := by
  obtain ⟨right', same, done⟩ := reads.expression spelled
  have written : op.token ≠ .rbrace := by rcases sign with rfl | rfl <;> decide
  refine readsAs_of_operand (.prefixOp op right') written (by rw [Expr.bare, Expr.bare, same])
    fun {bound tokens after} supplied short spares => ?_
  have fits : Fits .prefixed strength := ⟨by decide, .inr enough⟩
  obtain ⟨rest, left, run⟩ := done supplied short fits (spares.mono enough) spares.1
  refine ⟨rest, left, ?_⟩
  have chosen : operand (expression bound) bound false 0 (op.token :: tokens) =
      prefixExpr (expression bound) op false 0 (op.token :: tokens) := by
    rcases sign with rfl | rfl <;> rfl
  rw [chosen, prefixExpr, traced_false, advance_bind]
  show (expression bound .prefixed >>= _) false 0 tokens = _
  rw [bind_of_clean run]
  rfl

/-! ## What operators and argument lists add -/

theorem extensions_step {expr : Precedence → Rule Expr} {context : Precedence} {bound steps : Nat}
    {e e' : Expr} {next : Token} {tokens rest rest' : List Token}
    (left : rest.tail = next :: tokens) (tighter : context < .ofKind next.kind)
    (longer : extend expr bound e next false 0 rest = ⟨some e', rest', [], 0⟩) :
    extensions expr context bound (steps + 1) e false 0 rest =
      extensions expr context bound steps e' false 0 rest' := by
  rw [extensions, peek_bind, left]
  show (if context < .ofKind next.kind then _ else _ : Rule Expr) false 0 rest = _
  rw [if_pos tighter]
  exact bind_of_clean longer _

theorem extend_operator {expr : Precedence → Rule Expr} {bound : Nat} {op : Operator}
    {left right : Expr} {tokens rest rest' : List Token} (next : rest.tail = op.token :: tokens)
    (run : expr (.ofKind op.token.kind) false 0 tokens = ⟨some right, rest', [], 0⟩) :
    extend expr bound left op.token false 0 rest =
      ⟨some (.infixOp left op right), rest', [], 0⟩ := by
  rw [extend, advance_bind, Operator.ofToken?_token]
  show infixExpr expr left op (.ofKind op.token.kind) false 0 rest.tail = _
  rw [infixExpr, traced_false, advance_bind, next]
  show (expr (.ofKind op.token.kind) >>= _) false 0 tokens = _
  rw [bind_of_clean run]
  rfl

theorem readsAs_infixOp {op : Operator} {m n : Nat} {left right : Expr} {before behind : List Token}
    (enough : op.strength ≤ m) (tighter : op.strength < n)
    (spelled : Spells (.expr n right) behind) (readsLeft : ReadsAs (.expr m left) before)
    (readsRight : ReadsAs (.expr n right) behind) :
    ReadsAs (.expr op.strength (.infixOp left op right)) (before ++ op.token :: behind) := by
  obtain ⟨left', sameLeft, reached⟩ := readsLeft
  obtain ⟨right', sameRight, done⟩ := readsRight.expression spelled
  refine ⟨.infixOp left' op right', by rw [Expr.bare, Expr.bare, sameLeft, sameRight],
    fun {bound context tokens after} supplied short fits spares => ?_⟩
  have written : op.token ≠ .rbrace := by cases op <;> decide
  obtain ⟨mid, front, back⟩ := supplied.split
  obtain ⟨tokens', rfl, inside⟩ := (Supplies.cons_iff written).mp back
  have shorter : tokens'.length ≤ bound :=
    Nat.le_of_succ_le_succ (Nat.le_trans front.length_le short)
  have level := level_ofKind_token op
  obtain ⟨steps, rest, room, next, run⟩ :=
    reached front short (fits.mono enough) (.operator enough tokens')
  cases steps with
  | zero => exact absurd room (Nat.not_succ_le_zero _)
  | succ steps =>
    obtain ⟨rest', follows, runRight⟩ := done inside shorter (.right tighter)
      (spares.mono (Nat.le_of_lt tighter)) (level ▸ spares.1)
    have binds : context < .ofKind op.token.kind := by
      rcases fits.2 with loose | full
      · exact Precedence.lt_iff.mpr (level ▸ loose)
      · exact absurd full (by cases op <;> decide)
    refine ⟨steps, rest', ?_, follows,
      run.trans (extensions_step next binds (extend_operator next runRight))⟩
    exact Nat.le_trans inside.length_le (Nat.le_of_succ_le_succ room)

theorem extend_callNone {expr : Precedence → Rule Expr} {bound : Nat} {callee : Expr}
    {after rest : List Token} (next : rest.tail = .lparen :: .rparen :: after) :
    extend expr bound callee .lparen false 0 rest =
      ⟨some (.call callee []), .rparen :: after, [], 0⟩ := by
  rw [extend, advance_bind, next]
  rfl

theorem extend_call {expr : Precedence → Rule Expr} {bound : Nat} {callee arg : Expr}
    {args : List Expr} {tokens after rest rest₁ rest₂ : List Token}
    (next : rest.tail = .lparen :: tokens) (someArg : (tokens.headD .eof).kind ≠ .rparen)
    (runArg : expr .lowest false 0 tokens = ⟨some arg, rest₁, [], 0⟩)
    (runMore : moreArgs expr bound false 0 rest₁ = ⟨some args, rest₂, [], 0⟩)
    (closed : rest₂.tail = .rparen :: after) :
    extend expr bound callee .lparen false 0 rest =
      ⟨some (.call callee (arg :: args)), .rparen :: after, [], 0⟩ := by
  have runArgs : Grammar.args expr bound false 0 (.lparen :: tokens) =
      ⟨some (arg :: args), .rparen :: after, [], 0⟩ := by
    rw [Grammar.args, peek_bind, List.tail_cons, if_neg someArg, advance_bind, List.tail_cons,
      bind_of_clean runArg, bind_of_clean runMore, expect_bind _ _ _ (by rw [closed]; rfl), closed]
    rfl
  rw [extend, advance_bind, next]
  show (Grammar.args expr bound >>= _) false 0 (.lparen :: tokens) = _
  rw [bind_of_clean runArgs]
  rfl

theorem readsAs_callNone {callee : Expr} {target : List Token}
    (reads : ReadsAs (.expr fullStrength callee) target) :
    ReadsAs (.expr fullStrength (.call callee [])) (target ++ [.lparen, .rparen]) := by
  obtain ⟨callee', same, reached⟩ := reads
  refine ⟨.call callee' [], by rw [Expr.bare, Expr.bare, same],
    fun {bound context tokens after} supplied short fits _ => ?_⟩
  obtain ⟨_, front, back⟩ := supplied.split
  obtain ⟨_, rfl, inside⟩ := (Supplies.cons_iff (by decide)).mp back
  obtain ⟨_, rfl, closed⟩ := (Supplies.cons_iff (by decide)).mp inside
  cases Supplies.nil_iff.mp closed
  obtain ⟨steps, rest, room, next, run⟩ :=
    reached front short fits (.cons (by decide) (by decide) _)
  cases steps with
  | zero => exact absurd room (Nat.not_succ_le_zero _)
  | succ steps =>
    refine ⟨steps, _, ?_, rfl, run.trans (extensions_step next fits.1 (extend_callNone next))⟩
    exact Nat.le_of_succ_le (Nat.le_of_succ_le_succ room)

/-- What comes after an argument is a comma or the parenthesis that closes the list. -/
theorem spares_of_moreArgs {args : List Expr} {tokens more after : List Token}
    (spelled : Spells (.moreArgs args) more) (supplied : Supplies tokens more (.rparen :: after)) :
    Spares 0 tokens := by
  cases spelled with
  | noMoreArgs =>
    cases Supplies.nil_iff.mp supplied
    exact .cons (by decide) (by decide) _
  | moreArgs _ _ =>
    obtain ⟨_, rfl, _⟩ := (Supplies.cons_iff (by decide)).mp supplied
    exact .cons (by decide) (by decide) _

theorem readsAs_call {strength : Nat} {callee arg : Expr} {args : List Expr}
    {target first more : List Token} (spelledArg : Spells (.expr strength arg) first)
    (spelledMore : Spells (.moreArgs args) more)
    (readsCallee : ReadsAs (.expr fullStrength callee) target)
    (readsArg : ReadsAs (.expr strength arg) first) (readsMore : ReadsAs (.moreArgs args) more) :
    ReadsAs (.expr fullStrength (.call callee (arg :: args)))
      (target ++ .lparen :: (first ++ (more ++ [.rparen]))) := by
  obtain ⟨callee', sameCallee, reached⟩ := readsCallee
  obtain ⟨arg', sameArg, doneArg⟩ := readsArg.lowest spelledArg
  obtain ⟨args', sameArgs, doneArgs⟩ := readsMore
  refine ⟨.call callee' (arg' :: args'), ?_,
    fun {bound context tokens after} supplied short fits _ => ?_⟩
  · rw [Expr.bare, Expr.bare, sameCallee, Expr.bares, Expr.bares, sameArg, sameArgs]
  obtain ⟨_, front, back⟩ := supplied.split
  obtain ⟨tokens', rfl, inside⟩ := (Supplies.cons_iff (by decide)).mp back
  obtain ⟨mid, insideArg, behind⟩ := inside.split
  have shorter : tokens'.length ≤ bound :=
    Nat.le_of_succ_le_succ (Nat.le_trans front.length_le short)
  have midShorter : mid.length ≤ bound := Nat.le_trans insideArg.length_le shorter
  obtain ⟨_, insideMore, closing⟩ := behind.split
  obtain ⟨_, rfl, closed⟩ := (Supplies.cons_iff (by decide)).mp closing
  cases Supplies.nil_iff.mp closed
  have someArg : (tokens'.headD .eof).kind ≠ .rparen := by
    obtain ⟨head, used, rfl, isHead⟩ := spelledArg.exists_head_of_expr
    obtain ⟨_, rfl, _⟩ := (Supplies.cons_iff (written_of_exprHead isHead)).mp insideArg
    intro same
    rw [show head.kind = .rparen from same] at isHead
    exact absurd isHead (by decide)
  obtain ⟨steps, rest, room, next, run⟩ :=
    reached front short fits (.cons (by decide) (by decide) _)
  obtain ⟨rest₁, follows₁, run₁⟩ :=
    doneArg insideArg shorter (spares_of_moreArgs spelledMore insideMore)
  obtain ⟨rest₂, follows₂, run₂⟩ := doneArgs bound (follows₁ ▸ insideMore) (follows₁ ▸ midShorter)
    (follows₁ ▸ midShorter)
  cases steps with
  | zero => exact absurd room (Nat.not_succ_le_zero _)
  | succ steps =>
    refine ⟨steps, _, ?_, rfl,
      run.trans (extensions_step next fits.1 (extend_call next someArg run₁ run₂ follows₂))⟩
    have left : after.length + 1 ≤ tokens'.length :=
      Nat.le_trans insideMore.length_le insideArg.length_le
    exact Nat.le_trans (Nat.le_of_succ_le left) (Nat.le_of_succ_le_succ room)

theorem readsAs_noMoreArgs : ReadsAs (.moreArgs []) [] := by
  refine ⟨[], rfl, fun {bound} steps {tokens after} supplied _ _ => ?_⟩
  have closed := Supplies.nil_iff.mp supplied
  refine ⟨tokens, closed, ?_⟩
  cases steps with
  | zero => rfl
  | succ steps =>
    rw [Grammar.moreArgs, peek_bind, closed]
    rfl

theorem readsAs_moreArgs {strength : Nat} {arg : Expr} {args : List Expr} {first more : List Token}
    (spelledArg : Spells (.expr strength arg) first) (spelledMore : Spells (.moreArgs args) more)
    (readsArg : ReadsAs (.expr strength arg) first) (readsMore : ReadsAs (.moreArgs args) more) :
    ReadsAs (.moreArgs (arg :: args)) (.comma :: (first ++ more)) := by
  obtain ⟨arg', sameArg, doneArg⟩ := readsArg.lowest spelledArg
  obtain ⟨args', sameArgs, doneArgs⟩ := readsMore
  refine ⟨arg' :: args', by rw [Expr.bares, Expr.bares, sameArg, sameArgs],
    fun {bound} steps {tokens after} supplied short enough => ?_⟩
  obtain ⟨tokens', next, inside⟩ := (Supplies.cons_iff (by decide)).mp supplied
  obtain ⟨mid, insideArg, insideMore⟩ := inside.split
  have shorter : tokens'.length ≤ bound :=
    Nat.le_of_succ_le (by rw [next] at short; exact short)
  have midShorter : mid.length ≤ bound := Nat.le_trans insideArg.length_le shorter
  cases steps with
  | zero => exact absurd enough (by rw [next]; exact Nat.not_succ_le_zero _)
  | succ steps =>
    have midEnough : mid.length ≤ steps :=
      Nat.le_trans insideArg.length_le
        (Nat.le_of_succ_le_succ (by rw [next] at enough; exact enough))
    obtain ⟨rest₁, follows₁, run₁⟩ :=
      doneArg insideArg shorter (spares_of_moreArgs spelledMore insideMore)
    obtain ⟨rest₂, follows₂, run₂⟩ := doneArgs steps (follows₁ ▸ insideMore) (follows₁ ▸ midShorter)
      (follows₁ ▸ midEnough)
    refine ⟨rest₂, follows₂, ?_⟩
    rw [Grammar.moreArgs, peek_bind, next]
    show (advance >>= _) false 0 tokens = _
    rw [advance_bind, advance_bind, next, List.tail_cons, bind_of_clean run₁, bind_of_clean run₂]
    rfl

/-! ## Names -/

theorem moreParams_run (names : List String) :
    ∀ (steps : Nat) (tokens : List Token) {after : List Token},
      tokens.tail = moreNames names ++ .rparen :: after →
      tokens.tail.length ≤ steps →
      ∃ rest, rest.tail = .rparen :: after ∧
        moreParams steps false 0 tokens = ⟨some (names.map .ofName), rest, [], 0⟩ := by
  induction names with
  | nil =>
    intro steps tokens after next _
    refine ⟨tokens, next, ?_⟩
    cases steps with
    | zero => rfl
    | succ steps =>
      rw [moreParams, peek_bind, next]
      rfl
  | cons name names ih =>
    intro steps tokens after next enough
    cases steps with
    | zero => exact absurd enough (by rw [next]; exact Nat.not_succ_le_zero _)
    | succ steps =>
      have shorter : (moreNames names ++ .rparen :: after).length ≤ steps := by
        rw [next] at enough
        exact Nat.le_of_succ_le (Nat.le_of_succ_le_succ enough)
      obtain ⟨rest, follows, run⟩ :=
        ih steps (.ident name :: (moreNames names ++ .rparen :: after)) rfl shorter
      refine ⟨rest, follows, ?_⟩
      have read :
          Grammar.name false 0 (.comma :: .ident name :: (moreNames names ++ .rparen :: after)) =
          ⟨some (.ofName name), .ident name :: (moreNames names ++ .rparen :: after), [], 0⟩ := rfl
      rw [moreParams, peek_bind, next]
      show (advance >>= _) false 0 tokens = _
      rw [advance_bind, next]
      show (Grammar.name >>= _) false 0 (.comma :: .ident name :: (moreNames names ++ _)) = _
      rw [bind_of_clean read, bind_of_clean run]
      rfl

theorem params_run (names : List String) {bound : Nat} {first : Token} {after : List Token}
    (short : (nameList names ++ .rparen :: after).length ≤ bound) :
    params bound false 0 (first :: (nameList names ++ .rparen :: after)) =
      ⟨some (names.map .ofName), .rparen :: after, [], 0⟩ := by
  cases names with
  | nil => rfl
  | cons name names =>
    obtain ⟨rest, follows, run⟩ := moreParams_run names bound
      (.ident name :: (moreNames names ++ .rparen :: after)) rfl (Nat.le_of_succ_le short)
    have read :
        Grammar.name false 0 (first :: .ident name :: (moreNames names ++ .rparen :: after)) =
          ⟨some (.ofName name), .ident name :: (moreNames names ++ .rparen :: after), [], 0⟩ := rfl
    rw [params, peek_bind]
    show (Grammar.name >>= _) false 0 (first :: .ident name :: (moreNames names ++ _)) = _
    rw [bind_of_clean read, bind_of_clean run, expect_bind _ _ _ (by rw [follows]; rfl), follows]
    rfl

end TreeWalk
