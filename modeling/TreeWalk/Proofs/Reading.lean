import TreeWalk.Proofs.Reading.Stmt

/-!
# Spelled programs

Whatever spelling of a program is parsed, the program comes out of it.

Results:
1. the tokens of a phrase are read as that phrase (`readsAs_of_spells`), by one induction on the
   spelling that has a lemma for each of its rules;
2. parsing recovers a program from every spelling of it.  In particular operators of one strength
   associate to the left, and an operator takes its operands from every weaker one, as a prefix
   operator does from infix operators and an argument list from prefix operators
   (`ofTokens_recovers_spelled`);
3. closing braces at the end may be missing without changing what is read
   (`exists_parse_of_spells`).
-/

namespace TreeWalk

open Rule Grammar

theorem readsAs_of_spells {phrase : Phrase} {used : List Token} (spelled : Spells phrase used) :
    ReadsAs phrase used := by
  induction spelled with
  | ident name => exact readsAs_leaf nofun fun _ _ => rfl
  | int reads => exact readsAs_int reads
  | str text => exact readsAs_leaf nofun fun _ _ => rfl
  | trueWord => exact readsAs_leaf nofun fun _ _ => rfl
  | falseWord => exact readsAs_leaf nofun fun _ _ => rfl
  | group inner ih => exact readsAs_group inner ih
  | prefixOp sign enough operand ih => exact readsAs_prefixOp sign enough operand ih
  | infixOp _ enough tighter _ right ihLeft ihRight =>
    exact readsAs_infixOp enough tighter right ihLeft ihRight
  | ifThen test yes ihTest ihYes => exact readsAs_ifThen test yes ihTest ihYes
  | ifElse test yes no ihTest ihYes ihNo => exact readsAs_ifElse test yes no ihTest ihYes ihNo
  | fn names body ih => exact readsAs_fn names body ih
  | callNone _ ih => exact readsAs_callNone ih
  | call _ arg more ihCallee ihArg ihMore => exact readsAs_call arg more ihCallee ihArg ihMore
  | noMoreArgs => exact readsAs_noMoreArgs
  | moreArgs arg more ihArg ihMore => exact readsAs_moreArgs arg more ihArg ihMore
  | bind name value ih => exact readsAs_bind name value ih
  | ret value ih => exact readsAs_ret value ih
  | expr kept value ih => exact readsAs_exprStmt kept value ih
  | noStmts => exact readsAs_noStmts
  | ended first _ ihFirst ihRest => exact readsAs_ended first ihFirst ihRest
  | juxtaposed first rest notCall notMinus ihFirst ihRest =>
    exact readsAs_juxtaposed first rest notCall notMinus ihFirst ihRest
  | block _ ih => exact readsAs_block ih

theorem ofTokens_eq (tokens : List Token) :
    Parse.ofTokens tokens =
      ⟨⟨(Grammar.program tokens.length false 0 tokens).value.getD []⟩,
        (Grammar.program tokens.length false 0 tokens).notes⟩ :=
  rfl

/-- Whatever closing braces are missing at the end, the same program is read. -/
theorem exists_parse_of_spells {ss : List Stmt} {used : List Token}
    (spelled : Spells (.stmts ss) used) :
    ∃ ss', Stmt.bares ss' = Stmt.bares ss ∧
      ∀ tokens, Supplies tokens used [] → Parse.ofTokens tokens = ⟨⟨ss'⟩, []⟩ := by
  obtain ⟨ss', same, done⟩ := readsAs_of_spells spelled
  refine ⟨ss', same, fun tokens supplied => ?_⟩
  have run := done tokens.length [] supplied (Nat.le_refl _) (Nat.le_refl _) nofun (.inl rfl)
  rw [ofTokens_eq, Grammar.program, run]
  rfl

/-- A parse recovers a program if nothing is wrong with the tokens and the program comes out of
them, apart from the tokens that its expression statements keep. -/
structure Parse.Recovers (parse : Parse) (program : Program) : Prop where
  silent : parse.diagnostics = []
  same : parse.program.bare = program.bare

theorem recovers_of_spells {program : Program} {tokens : List Token}
    (spelled : Spells (.stmts program.statements) tokens) :
    (Parse.ofTokens tokens).Recovers program := by
  obtain ⟨ss', same, done⟩ := exists_parse_of_spells spelled
  have parsed := done tokens (by simpa using Supplies.of_append tokens [])
  refine ⟨by rw [parsed]; rfl, ?_⟩
  rw [parsed, Program.bare, Program.bare, same]

/-- The program that consists of one expression. -/
def Program.ofExpr (e : Expr) : Program :=
  ⟨[.expr .eof e]⟩

theorem recovers_of_spells_expr {strength : Nat} {e : Expr} {tokens : List Token}
    (spelled : Spells (.expr strength e) tokens) :
    (Parse.ofTokens tokens).Recovers (.ofExpr e) :=
  @recovers_of_spells (.ofExpr e) tokens (spelled.single .eof)

/-- A program is read back from all its spellings, so operators of one strength group to the left,
stronger ones bind tighter, and a sign binds tighter than an operator but not than a call. -/
theorem ofTokens_recovers_spelled :
    (∀ {program : Program} {tokens : List Token}, Spells (.stmts program.statements) tokens →
      (Parse.ofTokens tokens).Recovers program) ∧
    (∀ {strength m : Nat} {first : Expr} {before : List Token} {links : List Link},
      Spells (.expr m first) before → strength ≤ m →
      (∀ link ∈ links, link.op ≠ .bang ∧ link.op.strength = strength ∧
        ∃ n, strength < n ∧ Spells (.expr n link.right) link.behind) →
      (Parse.ofTokens (chainTokens before links)).Recovers (.ofExpr (chainTree first links))) ∧
    (∀ {op op' : Operator} {k m n : Nat} {a b c : Expr} {s t u : List Token},
      op ≠ .bang → op' ≠ .bang →
      Spells (.expr k a) s → Spells (.expr m b) t → Spells (.expr n c) u →
      op.strength ≤ k → op.strength < m → op'.strength < m → op'.strength < n →
      (Parse.ofTokens (s ++ op.token :: (t ++ op'.token :: u))).Recovers
        (.ofExpr (pairTree a op b op' c))) ∧
    (∀ {sign op : Operator} {m n : Nat} {a b : Expr} {s t : List Token},
      sign = .bang ∨ sign = .minus → op ≠ .bang → Spells (.expr m a) s → Spells (.expr n b) t →
      prefixStrength ≤ m → op.strength < n →
      (Parse.ofTokens (sign.token :: (s ++ op.token :: t))).Recovers
        (.ofExpr (.infixOp (.prefixOp sign a) op b))) ∧
    ∀ {sign : Operator} {f : Expr} {s : List Token},
      sign = .bang ∨ sign = .minus → Spells (.expr fullStrength f) s →
      (Parse.ofTokens (sign.token :: (s ++ [.lparen, .rparen]))).Recovers
        (.ofExpr (.prefixOp sign (.call f []))) := by
  refine ⟨recovers_of_spells, ?_, ?_, ?_, ?_⟩
  · intro strength m first before links spelled enough all
    obtain ⟨_, _, chained⟩ := spelled.chain enough all
    exact recovers_of_spells_expr chained
  · intro op op' k m n a b c s t u infixed infixed' first second third left middle middle' right
    obtain ⟨_, paired⟩ := Spells.pair infixed infixed' first second third left middle middle' right
    exact recovers_of_spells_expr paired
  · intro sign op m n a b s t isSign infixed left right enough tighter
    have weaker : op.strength ≤ prefixStrength := by cases op <;> decide
    have prefixed := Spells.prefixOp isSign enough left
    exact recovers_of_spells_expr (.infixOp infixed weaker tighter prefixed right)
  · intro sign f s isSign callee
    exact recovers_of_spells_expr (.prefixOp isSign (by decide) (.callNone callee))

/-- `let x = ((a)) - b - c * -d f(x)`, `a - (b) - c` and `a < b * c`, each with what comes of it. -/
theorem ofTokens_recovers_spelled_of_names :
    (Parse.ofTokens [.letWord, .ident "x", .assign, .lparen, .lparen, .ident "a", .rparen, .rparen,
        .minus, .ident "b", .minus, .ident "c", .asterisk, .minus, .ident "d", .ident "f", .lparen,
        .ident "x", .rparen]).Recovers
      ⟨[.bind .letWord (.ofName "x") (.infixOp
          (.infixOp (.ident (.ofName "a")) .minus (.ident (.ofName "b"))) .minus
          (.infixOp (.ident (.ofName "c")) .asterisk (.prefixOp .minus (.ident (.ofName "d"))))),
        .expr .eof (.call (.ident (.ofName "f")) [.ident (.ofName "x")])]⟩ ∧
    (Parse.ofTokens [.ident "a", .minus, .lparen, .ident "b", .rparen, .minus, .ident "c"]).Recovers
      (.ofExpr (.infixOp (.infixOp (.ident (.ofName "a")) .minus (.ident (.ofName "b"))) .minus
        (.ident (.ofName "c")))) ∧
    (Parse.ofTokens [.ident "a", .lt, .ident "b", .asterisk, .ident "c"]).Recovers
      (.ofExpr (.infixOp (.ident (.ofName "a")) .lt
        (.infixOp (.ident (.ofName "b")) .asterisk (.ident (.ofName "c"))))) := by
  obtain ⟨recovers, chains, pairs, _⟩ := ofTokens_recovers_spelled
  refine ⟨?_, ?_, ?_⟩
  · have left := @Spells.infixOp .minus _ _ _ _ _ _ (by decide) (by decide) (by decide)
      (.group (.group (.ident "a"))) (.ident "b")
    have right := @Spells.infixOp .asterisk _ _ _ _ _ _ (by decide) (by decide) (by decide)
      (.ident "c") (.prefixOp (.inr rfl) (by decide) (.ident "d"))
    have whole := @Spells.infixOp .minus _ _ _ _ _ _ (by decide) (by decide) (by decide) left right
    have called := Spells.call (.ident "f") (.ident "x") .noMoreArgs
    have both := Spells.juxtaposed (.bind "x" whole) (called.single .eof) (by decide) (by decide)
    simpa [Operator.token] using @recovers ⟨_⟩ _ both
  · have links : ∀ link ∈ [⟨.minus, .ident (.ofName "b"), [.lparen, .ident "b", .rparen]⟩,
        (⟨.minus, .ident (.ofName "c"), [.ident "c"]⟩ : Link)],
        link.op ≠ .bang ∧ link.op.strength = 3 ∧
          ∃ n, 3 < n ∧ Spells (.expr n link.right) link.behind := by
      intro link member
      rcases List.mem_cons.mp member with rfl | member
      · exact ⟨by decide, rfl, 6, by decide, .group (.ident "b")⟩
      · rcases List.mem_singleton.mp member with rfl
        exact ⟨by decide, rfl, 6, by decide, .ident "c"⟩
    simpa [chainTokens, chainTree, Operator.token] using chains (.ident "a") (by decide) links
  · have mixed := @pairs .lt .asterisk _ _ _ _ _ _ _ _ _ (by decide) (by decide) (.ident "a")
      (.ident "b") (.ident "c") (by decide) (by decide) (by decide) (by decide)
    simpa [pairTree, Operator.strength, Operator.token] using mixed

end TreeWalk
