import TreeWalk.Proofs.Run
import TreeWalk.Proofs.Written

/-!
# What is salvaged

Whatever is wrong with a text, the statements that are read from it can be written and read back.

Results:
1. one lemma for each way to build a rule, for what holds of its result however much it noted
   (`Rule.Yields.bind` and so on);
2. every rule yields trees that can be written, if its tokens are those of a text: one lemma for
   each rule (`expression_yields`, `program_yields`).
-/

namespace TreeWalk

open Grammar

/-! ## Results of rules -/

namespace Rule

variable {α β : Type}

/-- The rule does not go back, and if it has a result, `post` holds of it. -/
structure Yields (rule : Rule α) (tokens : List Token) (post : α → Prop) : Prop where
  forward : ∀ tracing level, (rule tracing level tokens).rest <:+ tokens
  result : ∀ tracing level a, (rule tracing level tokens).value = some a → post a

namespace Yields

variable {rule : Rule α} {next : α → Rule β} {tokens : List Token}
variable {mid : α → Prop} {post : β → Prop}

theorem pure {b : β} (holds : post b) : Yields (Pure.pure b) tokens post := by
  refine ⟨fun _ _ => List.suffix_rfl, ?_⟩
  intro _ _ b' same
  cases same
  exact holds

theorem fail (diagnostic : Diagnostic) : Yields (Rule.fail diagnostic) tokens post :=
  ⟨fun _ _ => List.suffix_rfl, fun _ _ => nofun⟩

theorem bind (first : rule.Yields tokens mid)
    (second : ∀ a rest, rest <:+ tokens → mid a → (next a).Yields rest post) :
    (rule >>= next).Yields tokens post := by
  have behind tracing level a (done : (rule tracing level tokens).value = some a) :=
    second a _ (first.forward tracing level) (first.result tracing level a done)
  refine ⟨fun tracing level => ?_, fun tracing level b => ?_⟩
  all_goals
    rw [bind_apply]
    cases found : (rule tracing level tokens).value
  · exact first.forward tracing level
  · next a =>
    exact ((behind tracing level a found).forward tracing _).trans (first.forward tracing level)
  · exact nofun
  · next a => exact (behind tracing level a found).result tracing _ b

/-- A rule that only moves the cursor leaves the result to the next one. -/
theorem moved {tokens' : List Token} {whole : Rule β} {last : Rule β}
    (same : ∀ tracing level, whole tracing level tokens = last tracing level tokens')
    (forward : tokens' <:+ tokens)
    (yields : last.Yields tokens' post) : whole.Yields tokens post := by
  refine ⟨fun tracing level => ?_, fun tracing level b => ?_⟩
  all_goals rw [same]
  · exact (yields.forward tracing level).trans forward
  · exact yields.result tracing level b

theorem current {next : Token → Rule β} (yields : (next (tokens.headD .eof)).Yields tokens post) :
    (Rule.current >>= next).Yields tokens post :=
  moved (current_bind · · _ next) List.suffix_rfl yields

theorem peek {next : Token → Rule β} (yields : (next (tokens.tail.headD .eof)).Yields tokens post) :
    (Rule.peek >>= next).Yields tokens post :=
  moved (peek_bind · · _ next) List.suffix_rfl yields

theorem advance {next : Unit → Rule β} (yields : (next ()).Yields tokens.tail post) :
    (Rule.advance >>= next).Yields tokens post :=
  moved (advance_bind · · _ next) (List.tail_suffix tokens) yields

theorem expect {kind : TokenKind} {next : Unit → Rule β}
    (yields : (tokens.tail.headD .eof).kind = kind → (next ()).Yields tokens.tail post) :
    (Rule.expect kind >>= next).Yields tokens post := by
  by_cases comes : (tokens.tail.headD .eof).kind = kind
  · exact moved (expect_bind · · _ comes next) (List.tail_suffix tokens) (yields comes)
  · have failed : (Rule.expect kind).Yields tokens fun _ => False := by
      rw [Rule.expect]
      refine peek ?_
      rw [if_neg comes]
      exact fail _
    exact bind failed fun _ _ _ never => never.elim

theorem skip {kind : TokenKind} {next : Unit → Rule β}
    (yields : ∀ rest, rest <:+ tokens → (next ()).Yields rest post) :
    (Rule.skip kind >>= next).Yields tokens post := by
  have forward :
      (if (tokens.tail.headD .eof).kind = kind then tokens.tail else tokens) <:+ tokens := by
    split
    · exact List.tail_suffix tokens
    · exact List.suffix_rfl
  exact moved (skip_bind · · _ kind next) forward (yields _ forward)

theorem traced (name : RuleName) (yields : rule.Yields tokens mid) :
    (traced name rule).Yields tokens mid := by
  refine ⟨fun tracing level => ?_, fun tracing level a => ?_⟩
  all_goals obtain ⟨inside, value, rest⟩ := exists_traced name rule tracing level tokens
  · rw [rest]
    exact yields.forward tracing inside
  · rw [value]
    exact yields.result tracing inside a

theorem attempt (yields : rule.Yields tokens mid) :
    (attempt rule).Yields tokens fun result => ∀ a, result = some a → mid a := by
  refine ⟨fun tracing level => ?_, fun tracing level result done b same => ?_⟩
  · rw [Rule.attempt]
    cases (rule tracing level tokens).value <;> exact yields.forward tracing level
  · subst same
    rw [Rule.attempt] at done
    cases found : (rule tracing level tokens).value with
    | none =>
      rw [found] at done
      cases done
    | some a =>
      rw [found] at done
      cases done
      exact yields.result tracing level _ found

end Yields

end Rule

/-! ## Trees that can be written -/

/-- The phrase can be read back from its text. -/
def Phrase.Plain (phrase : Phrase) : Prop :=
  ∃ tokens, Written phrase tokens

/-- An expression that can be read back from its text. -/
def Expr.Plain (e : Expr) : Prop :=
  (Phrase.expr fullStrength e).Plain

/-- The tokens are those of a text. -/
def WellFormed (tokens : List Token) : Prop :=
  ∀ token ∈ tokens, token.WellFormed

theorem WellFormed.suffix {tokens rest : List Token} (wellFormed : WellFormed tokens)
    (left : rest <:+ tokens) : WellFormed rest :=
  fun token member => wellFormed token (left.subset member)

theorem WellFormed.tail {tokens : List Token} (wellFormed : WellFormed tokens) :
    WellFormed tokens.tail :=
  wellFormed.suffix (List.tail_suffix tokens)

/-- What is read of nested expressions can be written. -/
def YieldsExpr (expr : Precedence → Rule Expr) : Prop :=
  ∀ context {tokens}, WellFormed tokens → (expr context).Yields tokens Expr.Plain

open Rule

/-! ## Lists -/

theorem name_yields {tokens : List Token} (wellFormed : WellFormed tokens) :
    name.Yields tokens fun ident => ∃ text, IsName text ∧ ident = .ofName text := by
  refine Yields.expect fun comes => Yields.current (Yields.pure ?_)
  have tail := wellFormed.tail
  cases behind : tokens.tail with
  | nil => rw [behind] at comes; cases comes
  | cons first after =>
    rw [behind] at comes tail
    cases first with
    | ident text => exact ⟨text, tail _ (List.mem_cons_self ..), rfl⟩
    | _ => cases comes

theorem moreParams_yields (bound : Nat) {tokens : List Token} (wellFormed : WellFormed tokens) :
    (moreParams bound).Yields tokens fun params =>
      ∃ names : List String, (∀ name ∈ names, IsName name) ∧ params = names.map .ofName := by
  have done {tokens : List Token} : (pure [] : Rule (List Ident)).Yields tokens fun params =>
      ∃ names : List String, (∀ name ∈ names, IsName name) ∧ params = names.map .ofName :=
    Yields.pure ⟨[], nofun, rfl⟩
  induction bound generalizing tokens with
  | zero => exact done
  | succ bound ih =>
    refine Yields.peek ?_
    split
    · refine Yields.advance ((name_yields wellFormed.tail).bind ?_)
      intro param rest left ⟨text, isName, same⟩
      refine (ih (wellFormed.tail.suffix left)).bind ?_
      intro params rest' _ ⟨names, all, listed⟩
      refine Yields.pure ⟨text :: names, List.forall_mem_cons.mpr ⟨isName, all⟩, ?_⟩
      rw [same, listed, List.map_cons]
    · exact done

theorem params_yields (bound : Nat) {tokens : List Token} (wellFormed : WellFormed tokens) :
    (params bound).Yields tokens fun params =>
      ∃ names : List String, (∀ name ∈ names, IsName name) ∧ params = names.map .ofName := by
  refine Yields.peek ?_
  split
  · exact Yields.advance (Yields.pure ⟨[], nofun, rfl⟩)
  · refine (name_yields wellFormed).bind ?_
    intro param rest left ⟨text, isName, same⟩
    refine (moreParams_yields bound (wellFormed.suffix left)).bind ?_
    intro params rest' _ ⟨names, all, listed⟩
    refine Yields.expect fun _ => Yields.pure ⟨text :: names, ?_, ?_⟩
    · exact List.forall_mem_cons.mpr ⟨isName, all⟩
    · rw [same, listed, List.map_cons]

section

variable {expr : Precedence → Rule Expr} {tokens : List Token}

theorem moreArgs_yields (yields : YieldsExpr expr) (steps : Nat) (wellFormed : WellFormed tokens) :
    (moreArgs expr steps).Yields tokens fun es => (Phrase.moreArgs es).Plain := by
  induction steps generalizing tokens with
  | zero => exact Yields.pure ⟨_, .noMoreArgs⟩
  | succ steps ih =>
    refine Yields.peek ?_
    split
    · have inside := wellFormed.tail.tail
      refine Yields.advance (Yields.advance ((yields .lowest inside).bind ?_))
      intro arg rest left ⟨_, first⟩
      refine (ih (inside.suffix left)).bind ?_
      intro args rest' _ ⟨_, more⟩
      exact Yields.pure ⟨_, .moreArgs first more⟩
    · exact Yields.pure ⟨_, .noMoreArgs⟩

/-- The arguments of a call can be written behind whatever is called. -/
theorem args_yields (yields : YieldsExpr expr) (bound : Nat) (wellFormed : WellFormed tokens) :
    (args expr bound).Yields tokens fun es => ∀ callee, Expr.Plain callee →
      Expr.Plain (.call callee es) := by
  refine Yields.peek ?_
  split
  · exact Yields.advance (Yields.pure fun callee ⟨_, target⟩ => ⟨_, .callNone target⟩)
  · refine Yields.advance ((yields .lowest wellFormed.tail).bind ?_)
    intro arg rest left ⟨_, first⟩
    refine (moreArgs_yields yields bound (wellFormed.tail.suffix left)).bind ?_
    intro args rest' _ ⟨_, more⟩
    refine Yields.expect fun _ => Yields.pure ?_
    exact fun callee ⟨_, target⟩ => ⟨_, .call target first more⟩

/-! ## Statements -/

theorem letStmt_yields (yields : YieldsExpr expr) (wellFormed : WellFormed (.letWord :: tokens)) :
    (letStmt expr).Yields (.letWord :: tokens) fun s => (Phrase.stmt s).Plain := by
  refine Yields.current ((name_yields wellFormed).bind ?_)
  intro bound rest left ⟨text, isName, same⟩
  have inside := (wellFormed.suffix left).tail.tail
  refine Yields.expect fun _ => Yields.advance ((yields .lowest inside).bind ?_)
  intro value rest' _ ⟨_, written⟩
  subst same
  exact Yields.skip fun _ _ => Yields.pure ⟨_, .bind isName written⟩

theorem returnStmt_yields (yields : YieldsExpr expr)
    (wellFormed : WellFormed (.returnWord :: tokens)) :
    (returnStmt expr).Yields (.returnWord :: tokens) fun s => (Phrase.stmt s).Plain := by
  refine Yields.current (Yields.advance ((yields .lowest wellFormed.tail).bind ?_))
  intro value rest _ ⟨_, written⟩
  exact Yields.skip fun _ _ => Yields.pure ⟨_, .ret written⟩

theorem exprStmt_yields (yields : YieldsExpr expr) (wellFormed : WellFormed tokens) :
    (exprStmt expr).Yields tokens fun s => (Phrase.stmt s).Plain := by
  refine Yields.traced _ (Yields.current ((yields .lowest wellFormed).bind ?_))
  intro value rest _ ⟨_, written⟩
  exact Yields.skip fun _ _ => Yields.pure ⟨_, .expr _ written⟩

theorem statement_yields (yields : YieldsExpr expr) (wellFormed : WellFormed tokens) :
    (statement expr).Yields tokens fun s => (Phrase.stmt s).Plain := by
  refine Yields.current ?_
  split
  · next comes =>
    rw [@eq_cons_of_only? _ .letWord _ rfl comes] at wellFormed ⊢
    exact letStmt_yields yields wellFormed
  · next comes =>
    rw [@eq_cons_of_only? _ .returnWord _ rfl comes] at wellFormed ⊢
    exact returnStmt_yields yields wellFormed
  · exact exprStmt_yields yields wellFormed

/-- A statement that fails is left out; the others can be written without it. -/
theorem statements_yields (yields : YieldsExpr expr) (ends : List TokenKind) (steps : Nat)
    (wellFormed : WellFormed tokens) :
    (statements expr ends steps).Yields tokens fun ss => (Phrase.stmts ss).Plain := by
  induction steps generalizing tokens with
  | zero => exact Yields.pure ⟨_, .noStmts⟩
  | succ steps ih =>
    refine Yields.current ?_
    split
    · exact Yields.pure ⟨_, .noStmts⟩
    · refine (statement_yields yields wellFormed).attempt.bind ?_
      intro read rest left plain
      refine Yields.advance ((ih (wellFormed.suffix left).tail).bind ?_)
      intro more rest' _ ⟨tokens', others⟩
      refine Yields.pure ?_
      cases read with
      | none => exact ⟨tokens', others⟩
      | some s =>
        obtain ⟨_, first⟩ := plain s rfl
        exact ⟨_, .stmts first others⟩

theorem block_yields (yields : YieldsExpr expr) (bound : Nat)
    (wellFormed : WellFormed (.lbrace :: tokens)) :
    (block expr bound).Yields (.lbrace :: tokens) fun b => (Phrase.block b).Plain := by
  refine Yields.current (Yields.advance ?_)
  refine (statements_yields yields [.rbrace] bound wellFormed.tail).bind ?_
  intro ss rest _ ⟨_, inside⟩
  exact Yields.pure ⟨_, .block inside⟩

/-- A block, if its brace comes next. -/
theorem expect_block_yields {α : Type} {next : Block → Rule α} {post : α → Prop}
    (yields : YieldsExpr expr) (bound : Nat) (wellFormed : WellFormed tokens)
    (behind : ∀ b rest, rest <:+ tokens → (Phrase.block b).Plain → (next b).Yields rest post) :
    (expect .lbrace >>= fun _ => block expr bound >>= next).Yields tokens post := by
  refine Yields.expect fun comes => ?_
  have found := @eq_cons_of_only? _ .lbrace _ rfl comes
  have tail := wellFormed.tail
  rw [found] at tail ⊢
  refine (block_yields yields bound tail).bind ?_
  intro b rest left plain
  exact behind b rest (left.trans (found ▸ List.tail_suffix tokens)) plain

/-! ## Expressions -/

theorem integer_yields (text : String) (wellFormed : Token.WellFormed (.int text)) :
    (integer text).Yields tokens Expr.Plain := by
  refine Yields.traced _ ?_
  split
  · next value reads =>
    have nonneg := Decimal.toInt_nonneg_of_int64? (List.all_eq_true.mpr wellFormed) reads
    exact Yields.pure ⟨_, .int nonneg⟩
  · exact Yields.fail _

theorem prefixExpr_yields {op : Operator} (isSign : op = .bang ∨ op = .minus)
    (yields : YieldsExpr expr) (wellFormed : WellFormed tokens) :
    (prefixExpr expr op).Yields tokens Expr.Plain := by
  refine Yields.traced _ (Yields.advance ((yields .prefixed wellFormed.tail).bind ?_))
  intro right rest _ ⟨_, written⟩
  exact Yields.pure ⟨_, .prefixOp isSign written⟩

theorem grouped_yields (yields : YieldsExpr expr) (wellFormed : WellFormed tokens) :
    (grouped expr).Yields tokens Expr.Plain := by
  refine Yields.advance ((yields .lowest wellFormed.tail).bind ?_)
  intro inner rest _ plain
  exact Yields.expect fun _ => Yields.pure plain

theorem alternative_yields (yields : YieldsExpr expr) (bound : Nat)
    (wellFormed : WellFormed tokens) :
    (alternative expr bound).Yields tokens fun no =>
      ∀ b, no = some b → (Phrase.block b).Plain := by
  refine Yields.peek ?_
  split
  · refine Yields.advance (expect_block_yields yields bound wellFormed.tail ?_)
    intro no rest _ plain
    refine Yields.pure fun b same => ?_
    cases same
    exact plain
  · exact Yields.pure nofun

theorem conditional_yields (yields : YieldsExpr expr) (bound : Nat)
    (wellFormed : WellFormed tokens) : (conditional expr bound).Yields tokens Expr.Plain := by
  have inside := wellFormed.tail.tail
  refine Yields.expect fun _ => Yields.advance ((yields .lowest inside).bind ?_)
  intro cond rest left ⟨_, test⟩
  refine Yields.expect fun _ => ?_
  refine expect_block_yields yields bound (inside.suffix left).tail ?_
  intro yes rest' left' ⟨_, consequence⟩
  have behind := (inside.suffix left).tail.suffix left'
  refine (alternative_yields yields bound behind).bind ?_
  intro no rest'' _ plain
  refine Yields.pure ?_
  cases no with
  | none => exact ⟨_, .ifThen test consequence⟩
  | some no =>
    obtain ⟨_, alternative⟩ := plain no rfl
    exact ⟨_, .ifElse test consequence alternative⟩

theorem function_yields (yields : YieldsExpr expr) (bound : Nat) (wellFormed : WellFormed tokens) :
    (function expr bound).Yields tokens Expr.Plain := by
  refine Yields.expect fun _ => (params_yields bound wellFormed.tail).bind ?_
  intro params rest left ⟨names, all, listed⟩
  refine expect_block_yields yields bound (wellFormed.tail.suffix left) ?_
  intro body rest' _ ⟨_, inner⟩
  subst listed
  exact Yields.pure ⟨_, .fn all inner⟩

theorem operand_yields (yields : YieldsExpr expr) (bound : Nat) (wellFormed : WellFormed tokens) :
    (operand expr bound).Yields tokens Expr.Plain := by
  refine Yields.current ?_
  cases tokens with
  | nil => exact Yields.fail _
  | cons first tokens =>
    have formed := wellFormed first (List.mem_cons_self ..)
    cases first with
    | ident text => exact Yields.pure ⟨_, .ident formed⟩
    | int text => exact integer_yields text formed
    | str text => exact Yields.pure ⟨_, .str formed⟩
    | trueWord => exact Yields.pure ⟨_, .trueWord⟩
    | falseWord => exact Yields.pure ⟨_, .falseWord⟩
    | bang => exact prefixExpr_yields (.inl rfl) yields wellFormed
    | minus => exact prefixExpr_yields (.inr rfl) yields wellFormed
    | lparen => exact grouped_yields yields wellFormed
    | ifWord => exact conditional_yields yields bound wellFormed
    | fnWord => exact function_yields yields bound wellFormed
    | _ => exact Yields.fail _

theorem extend_yields (yields : YieldsExpr expr) {context : Precedence} (bound : Nat) {left : Expr}
    {next : Token} (tighter : context < .ofKind next.kind) (plain : left.Plain)
    (wellFormed : WellFormed tokens) : (extend expr bound left next).Yields tokens Expr.Plain := by
  refine Yields.advance ?_
  cases written : Operator.ofToken? next with
  | none =>
    refine (args_yields yields bound wellFormed.tail).bind ?_
    intro arguments rest _ callable
    exact Yields.pure (callable left plain)
  | some op =>
    -- `!` binds nothing to its left, so it does not get here.
    have infixed : op ≠ .bang := by
      rintro rfl
      rw [Operator.ofToken?_eq_some.mp written] at tighter
      exact Precedence.not_lt_lowest context tighter
    refine Yields.traced _ (Yields.advance ((yields _ wellFormed.tail.tail).bind ?_))
    intro right rest _ ⟨_, behind⟩
    obtain ⟨_, before⟩ := plain
    exact Yields.pure ⟨_, .infixOp infixed before behind⟩

theorem extensions_yields (yields : YieldsExpr expr) (context : Precedence) (bound steps : Nat)
    {left : Expr} (plain : left.Plain) (wellFormed : WellFormed tokens) :
    (extensions expr context bound steps left).Yields tokens Expr.Plain := by
  induction steps generalizing left tokens with
  | zero => exact Yields.pure plain
  | succ steps ih =>
    refine Yields.peek ?_
    split
    · next tighter =>
      refine (extend_yields yields bound tighter plain wellFormed).bind ?_
      intro longer rest forward plain'
      exact ih plain' (wellFormed.suffix forward)
    · exact Yields.pure plain

end

theorem expression_yields (bound : Nat) : YieldsExpr (expression bound) := by
  induction bound with
  | zero => exact fun _ _ _ => Yields.traced _ (Yields.fail _)
  | succ bound ih =>
    intro context tokens wellFormed
    refine Yields.traced _ ((operand_yields ih bound wellFormed).bind ?_)
    intro left rest forward plain
    exact extensions_yields ih context bound bound plain (wellFormed.suffix forward)

theorem program_yields (bound : Nat) {tokens : List Token} (wellFormed : WellFormed tokens) :
    (program bound).Yields tokens fun ss => (Phrase.stmts ss).Plain :=
  statements_yields (expression_yields bound) [] bound wellFormed

end TreeWalk
