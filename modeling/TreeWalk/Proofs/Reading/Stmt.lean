import TreeWalk.Proofs.Reading.Expr

/-!
# Reading statements

Blocks and what they consist of, and the expressions in which blocks stand.
-/

namespace TreeWalk

open Rule Grammar

/-! ## Blocks -/

theorem readsAs_block {ss : List Stmt} {inner : List Token} (reads : ReadsAs (.stmts ss) inner) :
    ReadsAs (.block (.mk .lbrace ss)) (.lbrace :: (inner ++ [.rbrace])) := by
  obtain ⟨ss', same, done⟩ := reads
  refine ⟨.mk .lbrace ss', by rw [Block.bare, Block.bare, same],
    fun {bound tokens after} supplied short => ?_⟩
  obtain ⟨tokens, rfl, behind⟩ := (Supplies.cons_iff (by decide)).mp supplied
  obtain ⟨mid, inside, closing⟩ := behind.split
  have shorter : tokens.length ≤ bound := Nat.le_of_succ_le_succ short
  -- The block is closed by its brace or by the end of the text.
  have closed : mid.tail = after ∧ (mid = [] ∨ (mid.headD .eof).kind ∈ [TokenKind.rbrace]) := by
    rcases Supplies.brace_iff.mp closing with rfl | ⟨rfl, rfl⟩
    · exact ⟨rfl, .inr (List.mem_singleton.mpr rfl)⟩
    · exact ⟨rfl, .inl rfl⟩
  have run := done bound [.rbrace] inside shorter shorter (by simp) closed.2
  refine ⟨mid, closed.1, ?_⟩
  rw [Grammar.block, current_bind, advance_bind]
  show (statements (expression bound) [.rbrace] bound >>= _) false 0 tokens = _
  rw [bind_of_clean run]
  rfl

/-! ## Conditionals and functions -/

theorem exists_head_of_block {b : Block} {inner : List Token} (spelled : Spells (.block b) inner) :
    ∃ rest, inner = .lbrace :: rest := by
  cases spelled
  exact ⟨_, rfl⟩

/-- Up to the end of its first block a conditional is read the same with and without `else`. -/
theorem conditional_run {strength : Nat} {cond : Expr} {yes : Block} {test consequence : List Token}
    (spelledTest : Spells (.expr strength cond) test) (spelledYes : Spells (.block yes) consequence)
    (readsTest : ReadsAs (.expr strength cond) test) (readsYes : ReadsAs (.block yes) consequence) :
    ∃ cond' yes', cond'.bare = cond.bare ∧ yes'.bare = yes.bare ∧ ∀ {bound tokens after},
      Supplies tokens (.lparen :: (test ++ .rparen :: consequence)) after → tokens.length ≤ bound →
      ∃ rest, rest.tail = after ∧
        operand (expression bound) bound false 0 (.ifWord :: tokens) =
          (alternative (expression bound) bound >>= fun no => pure (.ifElse cond' yes' no)) false 0
            rest := by
  obtain ⟨cond', sameCond, doneTest⟩ := readsTest.lowest spelledTest
  obtain ⟨yes', sameYes, doneYes⟩ := readsYes
  refine ⟨cond', yes', sameCond, sameYes, fun {bound tokens after} supplied short => ?_⟩
  obtain ⟨tokens, rfl, behind⟩ := (Supplies.cons_iff (by decide)).mp supplied
  obtain ⟨_, insideTest, back⟩ := behind.split
  obtain ⟨mid, rfl, insideYes⟩ := (Supplies.cons_iff (by decide)).mp back
  obtain ⟨_, rfl⟩ := exists_head_of_block spelledYes
  obtain ⟨body, rfl, _⟩ := (Supplies.cons_iff (by decide)).mp insideYes
  have midShorter : (Token.lbrace :: body).length ≤ bound + 1 :=
    Nat.le_trans (Nat.le_of_succ_le (Nat.le_trans insideTest.length_le (Nat.le_of_succ_le short)))
      (Nat.le_succ bound)
  obtain ⟨rest₁, follows₁, run₁⟩ :=
    doneTest insideTest (Nat.le_of_succ_le short) (.cons (by decide) (by decide) _)
  obtain ⟨rest₂, follows₂, run₂⟩ := doneYes insideYes midShorter
  refine ⟨rest₂, follows₂, ?_⟩
  show conditional (expression bound) bound false 0 (.ifWord :: .lparen :: tokens) = _
  rw [conditional, expect_bind _ _ _ (by rfl), advance_bind]
  show (expression bound .lowest >>= _) false 0 tokens = _
  rw [bind_of_clean run₁, expect_bind _ _ _ (by rw [follows₁]; rfl), follows₁,
    expect_bind _ _ _ (by rfl)]
  show (Grammar.block (expression bound) bound >>= _) false 0 (.lbrace :: body) = _
  rw [bind_of_clean run₂]

theorem readsAs_ifThen {strength : Nat} {cond : Expr} {yes : Block} {test consequence : List Token}
    (spelledTest : Spells (.expr strength cond) test) (spelledYes : Spells (.block yes) consequence)
    (readsTest : ReadsAs (.expr strength cond) test) (readsYes : ReadsAs (.block yes) consequence) :
    ReadsAs (.expr fullStrength (.ifElse cond yes none))
      (.ifWord :: .lparen :: (test ++ .rparen :: consequence)) := by
  obtain ⟨cond', yes', sameCond, sameYes, done⟩ :=
    conditional_run spelledTest spelledYes readsTest readsYes
  refine readsAs_of_operand (.ifElse cond' yes' none) (by decide)
    (by rw [Expr.bare, Expr.bare, sameCond, sameYes])
    fun {bound tokens after} supplied short spares => ?_
  obtain ⟨rest, follows, run⟩ := done supplied short
  refine ⟨rest, follows, run.trans ?_⟩
  have none : alternative (expression bound) bound false 0 rest = ⟨some none, rest, [], 0⟩ := by
    rw [alternative, peek_bind, follows, if_neg spares.2]
    rfl
  rw [bind_of_clean none]
  rfl

theorem readsAs_ifElse {strength : Nat} {cond : Expr} {yes no : Block}
    {test consequence other : List Token}
    (spelledTest : Spells (.expr strength cond) test) (spelledYes : Spells (.block yes) consequence)
    (spelledNo : Spells (.block no) other) (readsTest : ReadsAs (.expr strength cond) test)
    (readsYes : ReadsAs (.block yes) consequence) (readsNo : ReadsAs (.block no) other) :
    ReadsAs (.expr fullStrength (.ifElse cond yes (some no)))
      (.ifWord :: .lparen :: (test ++ .rparen :: (consequence ++ .elseWord :: other))) := by
  obtain ⟨cond', yes', sameCond, sameYes, done⟩ :=
    conditional_run spelledTest spelledYes readsTest readsYes
  obtain ⟨no', sameNo, doneNo⟩ := readsNo
  refine readsAs_of_operand (.ifElse cond' yes' (some no')) (by decide)
    (by rw [Expr.bare, Expr.bare, sameCond, sameYes, sameNo])
    fun {bound tokens after} supplied short spares => ?_
  rw [show Token.lparen :: (test ++ .rparen :: (consequence ++ .elseWord :: other)) =
    Token.lparen :: (test ++ .rparen :: consequence) ++ .elseWord :: other by simp] at supplied
  obtain ⟨_, front, back⟩ := supplied.split
  obtain ⟨mid, rfl, insideNo⟩ := (Supplies.cons_iff (by decide)).mp back
  obtain ⟨_, rfl⟩ := exists_head_of_block spelledNo
  obtain ⟨body, rfl, _⟩ := (Supplies.cons_iff (by decide)).mp insideNo
  obtain ⟨rest, follows, run⟩ := done front short
  have midShorter : (Token.lbrace :: body).length ≤ bound + 1 :=
    Nat.le_trans (Nat.le_of_succ_le (Nat.le_trans front.length_le short)) (Nat.le_succ bound)
  obtain ⟨rest', follows', runNo⟩ := doneNo insideNo midShorter
  refine ⟨rest', follows', run.trans ?_⟩
  have some : alternative (expression bound) bound false 0 rest =
      ⟨some (some no'), rest', [], 0⟩ := by
    rw [alternative, peek_bind, follows]
    show (advance >>= _) false 0 rest = _
    rw [advance_bind, follows, expect_bind _ _ _ (by rfl)]
    show (Grammar.block (expression bound) bound >>= _) false 0 (.lbrace :: body) = _
    rw [bind_of_clean runNo]
    rfl
  rw [bind_of_clean some]
  rfl

theorem written_of_mem_nameList {names : List String} {token : Token}
    (member : token ∈ nameList names) : token ≠ .rbrace := by
  rintro rfl
  cases names <;> simp [nameList, moreNames] at member

theorem readsAs_fn (names : List String) {body : Block} {inner : List Token}
    (spelled : Spells (.block body) inner) (reads : ReadsAs (.block body) inner) :
    ReadsAs (.expr fullStrength (.fn (names.map .ofName) body))
      (.fnWord :: .lparen :: (nameList names ++ .rparen :: inner)) := by
  obtain ⟨body', same, done⟩ := reads
  refine readsAs_of_operand (.fn (names.map .ofName) body') (by decide)
    (by rw [Expr.bare, Expr.bare, same]) fun {bound tokens after} supplied short _ => ?_
  obtain ⟨_, rfl, behind⟩ := (Supplies.cons_iff (by decide)).mp supplied
  obtain ⟨_, rfl, back⟩ :=
    (Supplies.append_written_iff fun _ => written_of_mem_nameList).mp behind
  obtain ⟨_, rfl, inside⟩ := (Supplies.cons_iff (by decide)).mp back
  obtain ⟨_, rfl⟩ := exists_head_of_block spelled
  obtain ⟨body, rfl, _⟩ := (Supplies.cons_iff (by decide)).mp inside
  have bodyShorter : (Token.lbrace :: body).length ≤ bound + 1 := by
    simp only [List.length_cons, List.length_append] at short ⊢
    omega
  obtain ⟨rest, follows, run⟩ := done inside bodyShorter
  refine ⟨rest, follows, ?_⟩
  show Grammar.function (expression bound) bound false 0 (.fnWord :: .lparen :: _) = _
  rw [Grammar.function, expect_bind _ _ _ (by rfl)]
  show (params bound >>= _) false 0 (.lparen :: (nameList names ++ .rparen :: .lbrace :: body)) = _
  rw [bind_of_clean (params_run names (Nat.le_of_succ_le short)), expect_bind _ _ _ (by rfl)]
  show (Grammar.block (expression bound) bound >>= _) false 0 (.lbrace :: body) = _
  rw [bind_of_clean run]
  rfl

/-! ## Statements -/

/-- A semicolon after a statement goes with it. -/
theorem tail_skipped {rest after : List Token} (follows : rest.tail = after) :
    (if (rest.tail.headD .eof).kind = .semicolon then rest.tail else rest).tail =
      if (after.headD .eof).kind = .semicolon then after.tail else after := by
  subst follows
  split <;> rfl

theorem readsAs_bind (name : String) {strength : Nat} {value : Expr} {used : List Token}
    (spelled : Spells (.expr strength value) used) (reads : ReadsAs (.expr strength value) used) :
    ReadsAs (.stmt (.bind .letWord (.ofName name) value))
      (.letWord :: .ident name :: .assign :: used) := by
  obtain ⟨value', same, done⟩ := reads.lowest spelled
  refine ⟨.bind .letWord (.ofName name) value', by rw [Stmt.bare, Stmt.bare, same],
    fun {bound tokens after} supplied short spares => ?_⟩
  obtain ⟨tokens, rfl, inside⟩ :=
    (Supplies.append_written_iff (u := [.letWord, .ident name, .assign]) (by simp)).mp supplied
  have shorter : tokens.length ≤ bound := Nat.le_trans (Nat.le_add_right _ 3) short
  obtain ⟨rest, follows, run⟩ := done inside shorter spares
  refine ⟨_, tail_skipped follows, ?_⟩
  have read : Grammar.name false 0 (.letWord :: .ident name :: .assign :: tokens) =
      ⟨some (.ofName name), .ident name :: .assign :: tokens, [], 0⟩ := rfl
  show letStmt (expression bound) false 0 (.letWord :: .ident name :: .assign :: tokens) = _
  rw [letStmt, current_bind, bind_of_clean read, expect_bind _ _ _ (by rfl), advance_bind]
  show (expression bound .lowest >>= _) false 0 tokens = _
  rw [bind_of_clean run, skip_bind]
  rfl

theorem readsAs_ret {strength : Nat} {value : Expr} {used : List Token}
    (spelled : Spells (.expr strength value) used) (reads : ReadsAs (.expr strength value) used) :
    ReadsAs (.stmt (.ret .returnWord value)) (.returnWord :: used) := by
  obtain ⟨value', same, done⟩ := reads.lowest spelled
  refine ⟨.ret .returnWord value', by rw [Stmt.bare, Stmt.bare, same],
    fun {bound tokens after} supplied short spares => ?_⟩
  obtain ⟨tokens, rfl, inside⟩ := (Supplies.cons_iff (by decide)).mp supplied
  obtain ⟨rest, follows, run⟩ := done inside (Nat.le_of_succ_le short) spares
  refine ⟨_, tail_skipped follows, ?_⟩
  show returnStmt (expression bound) false 0 (.returnWord :: tokens) = _
  rw [returnStmt, current_bind, advance_bind]
  show (expression bound .lowest >>= _) false 0 tokens = _
  rw [bind_of_clean run, skip_bind]
  rfl

theorem statement_of_exprHead {expr : Precedence → Rule Expr} {first : Token} {tokens : List Token}
    (head : first.kind ∈ exprHeads) :
    statement expr false 0 (first :: tokens) = exprStmt expr false 0 (first :: tokens) := by
  cases first <;> first | rfl | exact absurd head (by decide)

theorem readsAs_exprStmt (kept : Token) {strength : Nat} {value : Expr} {used : List Token}
    (spelled : Spells (.expr strength value) used) (reads : ReadsAs (.expr strength value) used) :
    ReadsAs (.stmt (.expr kept value)) used := by
  obtain ⟨value', same, done⟩ := reads.lowest spelled
  obtain ⟨first, used, rfl, head⟩ := spelled.exists_head_of_expr
  refine ⟨.expr first value', by rw [Stmt.bare, Stmt.bare, same],
    fun {bound tokens after} supplied short spares => ?_⟩
  obtain ⟨rest, follows, run⟩ := done supplied short spares
  obtain ⟨tokens, rfl, _⟩ := (Supplies.cons_iff (written_of_exprHead head)).mp supplied
  refine ⟨_, tail_skipped follows, ?_⟩
  rw [statement_of_exprHead head, exprStmt, traced_false, current_bind, bind_of_clean run,
    skip_bind]
  rfl

/-! ## Sequences of statements -/

theorem readsAs_noStmts : ReadsAs (.stmts []) [] := by
  refine ⟨[], rfl, fun {bound} steps ends {tokens after} supplied _ _ _ atEnd => ?_⟩
  cases Supplies.nil_iff.mp supplied
  cases steps with
  | zero => rfl
  | succ steps =>
    have ending : (tokens.headD .eof).kind ∈ TokenKind.eof :: ends := by
      rcases atEnd with rfl | closed
      · exact List.mem_cons_self ..
      · exact List.mem_cons_of_mem _ closed
    rw [statements, current_bind, if_pos ending]
    rfl

theorem statements_step {expr : Precedence → Rule Expr} {ends : List TokenKind} {steps : Nat}
    {tokens rest after : List Token} {s : Stmt} {ss : List Stmt}
    (begins : (tokens.headD .eof).kind ∉ TokenKind.eof :: ends)
    (run : statement expr false 0 tokens = ⟨some s, rest, [], 0⟩)
    (runs : statements expr ends steps false 0 rest.tail = ⟨some ss, after, [], 0⟩) :
    statements expr ends (steps + 1) false 0 tokens = ⟨some (s :: ss), after, [], 0⟩ := by
  have tried : attempt (statement expr) false 0 tokens = ⟨some (some s), rest, [], 0⟩ := by
    rw [attempt, run]
  rw [statements, current_bind, if_neg begins, bind_of_clean tried, advance_bind,
    bind_of_clean runs]
  rfl

theorem begins_of_stmtHead {first : Token} {ends : List TokenKind} (head : first.kind ∈ stmtHeads)
    (braces : ∀ kind ∈ ends, kind = TokenKind.rbrace) : first.kind ∉ TokenKind.eof :: ends := by
  intro member
  rcases List.mem_cons.mp member with eof | closing
  · rw [eof] at head
    exact absurd head (by decide)
  · rw [braces _ closing] at head
    exact absurd head (by decide)

/-- A statement and those after it are read one by one if the first is left alone by what follows
it. -/
theorem readsAs_stmts {s : Stmt} {ss : List Stmt} {first rest : List Token} (between : List Token)
    (spelled : Spells (.stmt s) first) (readsFirst : ReadsAs (.stmt s) first)
    (readsRest : ReadsAs (.stmts ss) rest)
    (parts : ∀ {ends : List TokenKind} {tokens after : List Token},
      Supplies tokens (between ++ rest) after → (∀ kind ∈ ends, kind = .rbrace) →
      (after = [] ∨ (after.headD .eof).kind ∈ ends) →
      Spares 0 tokens ∧
        Supplies (if (tokens.headD .eof).kind = .semicolon then tokens.tail else tokens)
          rest after) :
    ReadsAs (.stmts (s :: ss)) (first ++ (between ++ rest)) := by
  obtain ⟨s', sameFirst, doneFirst⟩ := readsFirst
  obtain ⟨ss', sameRest, doneRest⟩ := readsRest
  refine ⟨s' :: ss', by rw [Stmt.bares, Stmt.bares, sameFirst, sameRest],
    fun {bound} steps ends {tokens after} supplied short enough braces atEnd => ?_⟩
  obtain ⟨mid, front, back⟩ := supplied.split
  obtain ⟨spares, behind⟩ := parts back braces atEnd
  obtain ⟨rest₁, follows, run⟩ := doneFirst front short spares
  obtain ⟨head, used, rfl, isHead⟩ := spelled.exists_head_of_stmt
  obtain ⟨tokens, rfl, inside⟩ := (Supplies.cons_iff (written_of_stmtHead isHead)).mp front
  cases steps with
  | zero => exact absurd enough (Nat.not_succ_le_zero _)
  | succ steps =>
    have shrinks : rest₁.tail.length ≤ tokens.length := by
      rw [follows]
      refine Nat.le_trans ?_ inside.length_le
      split
      · exact List.length_tail ▸ Nat.sub_le ..
      · exact Nat.le_refl _
    refine statements_step (begins_of_stmtHead isHead braces) run ?_
    exact doneRest steps ends (follows ▸ behind) (Nat.le_trans shrinks (Nat.le_of_succ_le short))
      (Nat.le_trans shrinks (Nat.le_of_succ_le_succ enough)) braces atEnd

theorem readsAs_ended {s : Stmt} {ss : List Stmt} {first rest : List Token}
    (spelled : Spells (.stmt s) first) (readsFirst : ReadsAs (.stmt s) first)
    (readsRest : ReadsAs (.stmts ss) rest) :
    ReadsAs (.stmts (s :: ss)) (first ++ .semicolon :: rest) := by
  refine readsAs_stmts [.semicolon] spelled readsFirst readsRest
    fun {ends tokens after} supplied _ _ => ?_
  obtain ⟨tokens, rfl, behind⟩ := (Supplies.cons_iff (by decide)).mp supplied
  exact ⟨.cons (by decide) (by decide) _, behind⟩

/-- A statement begins with no token that continues the one before it, these two apart. -/
theorem spares_of_stmtHead {first : Token} (head : first.kind ∈ stmtHeads)
    (notCall : first ≠ .lparen) (notMinus : first ≠ .minus) (after : List Token) :
    Spares 0 (first :: after) ∧ first.kind ≠ .semicolon := by
  cases first with
  | lparen => exact absurd rfl notCall
  | minus => exact absurd rfl notMinus
  | _ =>
    first
    | exact absurd head (by decide)
    | exact ⟨.cons (Nat.le_refl _) (by simp [Token.kind]) _, by simp [Token.kind]⟩

theorem readsAs_juxtaposed {s : Stmt} {ss : List Stmt} {first rest : List Token}
    (spelled : Spells (.stmt s) first) (spelledRest : Spells (.stmts ss) rest)
    (notCall : rest.head? ≠ some .lparen) (notMinus : rest.head? ≠ some .minus)
    (readsFirst : ReadsAs (.stmt s) first) (readsRest : ReadsAs (.stmts ss) rest) :
    ReadsAs (.stmts (s :: ss)) (first ++ rest) := by
  refine readsAs_stmts [] spelled readsFirst readsRest
    fun {ends tokens after} supplied braces atEnd => ?_
  -- What follows the statement is the next one, or else the end of the sequence.
  have next : Spares 0 tokens ∧ (tokens.headD .eof).kind ≠ .semicolon := by
    rcases spelledRest.exists_head_of_stmts with rfl | ⟨head, rest, rfl, isHead⟩
    · cases Supplies.nil_iff.mp supplied
      rcases atEnd with rfl | closed
      · exact ⟨⟨by decide, by decide⟩, by decide⟩
      · have brace := braces _ closed
        exact ⟨⟨by rw [pull, brace]; decide, by rw [brace]; decide⟩, by rw [brace]; decide⟩
    · obtain ⟨_, rfl, _⟩ := (Supplies.cons_iff (written_of_stmtHead isHead)).mp supplied
      refine spares_of_stmtHead isHead ?_ ?_ _
      · exact fun same => notCall (congrArg some same)
      · exact fun same => notMinus (congrArg some same)
  refine ⟨next.1, ?_⟩
  rw [if_neg next.2]
  exact supplied

end TreeWalk
