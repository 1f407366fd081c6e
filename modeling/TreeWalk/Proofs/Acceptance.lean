import TreeWalk.Proofs.Reading
import TreeWalk.Proofs.Respelling
import TreeWalk.Proofs.Silence

/-!
# What is accepted

Tokens are read without a diagnostic if and only if the grammar generates them, closing braces at
the end left aside.

Results:
1. a rule that notes no diagnostic has read tokens that the grammar generates: one lemma for each
   rule, and one induction over the bound on nested expressions (`expression_reads`);
2. hence tokens are accepted exactly if they are generated once some number of closing braces is
   put after them, and those braces do not change the program (`ofTokens_accepts_iff_derives`).
-/

namespace TreeWalk

open Rule Grammar

/-! ## What a rule reads -/

/-- The tokens are real ones, and a bound on them is kept. -/
structure Within (bound : Nat) (tokens : List Token) : Prop where
  short : tokens.length ≤ bound
  inside : .eof ∉ tokens

theorem Within.suffix {bound : Nat} {tokens after : List Token} (within : Within bound tokens)
    (left : after <:+ tokens) : Within bound after :=
  ⟨Nat.le_trans left.length_le within.short, fun member => within.inside (left.subset member)⟩

theorem Within.of_cons {bound : Nat} {first : Token} {tokens : List Token}
    (within : Within (bound + 1) (first :: tokens)) : Within bound tokens :=
  ⟨Nat.le_of_succ_le_succ within.short, fun member => within.inside (List.mem_cons_of_mem _ member)⟩

/-- Unless it notes a diagnostic, the rule reads tokens that are generated from `n`, from the cursor
on and up to where it leaves the cursor. -/
def Rule.Reads {α : Type} (rule : Rule α) (n : Nonterminal) (tokens : List Token) : Prop :=
  rule.Ensures tokens fun _ rest => ∃ first behind used,
    tokens = first :: behind ∧ Supplies behind used rest.tail ∧ Derives n (first :: used)

/-- Unless it notes a diagnostic, the rule reads tokens with the given property, the first of them
behind the cursor. -/
def Rule.Continues {α : Type} (rule : Rule α) (property : List Token → Prop)
    (tokens : List Token) : Prop :=
  rule.Ensures tokens fun _ rest => ∃ used, Supplies tokens.tail used rest.tail ∧ property used

/-- What is read of nested expressions is right. -/
def ReadsExpr (expr : Precedence → Rule Expr) (bound : Nat) : Prop :=
  ∀ context {tokens}, Within bound tokens → (expr context).Reads .expr tokens

theorem Derives.expr_of_primary {u : List Token} (derived : Derives .primary u) :
    Derives .expr u :=
  .operand (.unsigned (.bare derived))

theorem Supplies.snoc {tokens used after : List Token} {last : Token}
    (supplied : Supplies tokens used (last :: after)) : Supplies tokens (used ++ [last]) after :=
  supplied.trans (.token last (.nothing after))

/-! ## Lists -/

theorem name_ensures (tokens : List Token) :
    name.Ensures tokens fun _ rest =>
      ∃ text after, tokens.tail = .ident text :: after ∧ rest = .ident text :: after := by
  refine Ensures.expect fun comes => ?_
  refine Ensures.current (Ensures.pure ?_)
  cases behind : tokens.tail with
  | nil => rw [behind] at comes; cases comes
  | cons first after =>
    rw [behind] at comes
    cases first with
    | ident text => exact ⟨text, after, rfl, rfl⟩
    | _ => cases comes

theorem moreParams_ensures (bound : Nat) (tokens : List Token) :
    (moreParams bound).Ensures tokens fun _ rest =>
      ∃ names, tokens.tail = moreNames names ++ rest.tail := by
  induction bound generalizing tokens with
  | zero => exact Ensures.pure ⟨[], rfl⟩
  | succ bound ih =>
    refine Ensures.peek ?_
    split
    · next comes =>
      have comma := @eq_cons_of_only? _ .comma _ rfl comes
      refine Ensures.advance ?_
      refine (name_ensures _).bind ?_
      rintro param _ ⟨text, after, behind, rfl⟩
      refine (ih _).bind ?_
      rintro params rest ⟨names, more⟩
      refine Ensures.pure ⟨text :: names, ?_⟩
      rw [comma, behind, show after = _ from more]
      rfl
    · exact Ensures.pure ⟨[], rfl⟩

theorem params_ensures (bound : Nat) (tokens : List Token) :
    (params bound).Ensures tokens fun _ rest => ∃ names after,
      tokens.tail = nameList names ++ .rparen :: after ∧ rest = .rparen :: after := by
  refine Ensures.peek ?_
  split
  · next comes =>
    have closed := @eq_cons_of_only? _ .rparen _ rfl comes
    exact Ensures.advance (Ensures.pure ⟨[], _, closed, closed⟩)
  · refine (name_ensures _).bind ?_
    rintro param _ ⟨text, after, behind, rfl⟩
    refine (moreParams_ensures _ _).bind ?_
    rintro more rest ⟨names, others⟩
    refine Ensures.expect_only rfl fun last closed => ?_
    refine Ensures.pure ⟨text :: names, last, ?_, rfl⟩
    rw [behind, show after = _ from others, closed]
    rfl

section

variable {expr : Precedence → Rule Expr} {bound : Nat} {tokens : List Token}

theorem moreArgs_continues (reads : ReadsExpr expr bound) (steps : Nat)
    (within : Within bound tokens.tail) :
    (moreArgs expr steps).Continues (Derives .moreArgs) tokens := by
  induction steps generalizing tokens with
  | zero => exact Ensures.pure ⟨[], .nothing _, .noMoreArgs⟩
  | succ steps ih =>
    refine Ensures.peek ?_
    split
    · next comes =>
      have comma := @eq_cons_of_only? _ .comma _ rfl comes
      refine Ensures.advance (Ensures.advance ?_)
      have inside := within.suffix (List.tail_suffix _)
      refine Ensures.bind (reads .lowest inside) ?_
      rintro arg rest ⟨first, behind, used, found, supplied, derived⟩
      have left : rest.tail <:+ tokens.tail.tail :=
        found ▸ supplied.suffix.trans (List.suffix_cons first behind)
      refine Ensures.bind (ih (inside.suffix left)) ?_
      rintro args rest' ⟨more, suppliedMore, derivedMore⟩
      refine Ensures.pure ⟨_, ?_, .moreArgs derived derivedMore⟩
      rw [comma, found]
      exact .token _ (.token _ (supplied.trans suppliedMore))
    · exact Ensures.pure ⟨[], .nothing _, .noMoreArgs⟩

/-- The arguments of a call, the parenthesis before them under the cursor. -/
theorem args_reads (reads : ReadsExpr expr bound) {after : List Token}
    (within : Within bound after) : (args expr bound).Reads .args (.lparen :: after) := by
  refine Ensures.peek ?_
  split
  · next comes =>
    obtain ⟨last, rfl⟩ : ∃ last, after = .rparen :: last :=
      ⟨_, eq_cons_of_only? rfl comes⟩
    exact Ensures.advance (Ensures.pure ⟨_, _, [.rparen], rfl, .token _ (.nothing _), .noArgs⟩)
  · refine Ensures.advance (Ensures.bind (reads .lowest within) ?_)
    rintro arg rest ⟨first, behind, used, rfl, supplied, derived⟩
    have left := supplied.suffix.trans (List.suffix_cons first behind)
    refine Ensures.bind (moreArgs_continues reads bound (within.suffix left)) ?_
    rintro more rest' ⟨others, suppliedMore, derivedMore⟩
    refine Ensures.expect_only rfl fun last closed => ?_
    refine Ensures.pure ⟨_, _, _, rfl, ?_, .someArgs derived derivedMore⟩
    exact .token first (supplied.trans (closed ▸ suppliedMore).snoc)

/-! ## Statements -/

/-- A clause may have a semicolon behind it. -/
theorem skip_reads {s : Stmt} {first : Token} {behind used rest : List Token}
    (supplied : Supplies behind used rest.tail) (derived : Derives .clause (first :: used)) :
    (skip .semicolon >>= fun _ => (pure s : Rule Stmt)).Ensures rest fun _ rest' => ∃ used',
      Supplies behind used' rest'.tail ∧ Derives .stmt (first :: used') := by
  refine Ensures.skip (Ensures.pure ?_)
  split
  · next comes =>
    have closed := @eq_cons_of_only? _ .semicolon _ rfl comes
    exact ⟨_, (closed ▸ supplied).snoc, derived.ended⟩
  · exact ⟨_, supplied, derived.unended⟩

theorem letStmt_reads (reads : ReadsExpr expr bound) (within : Within bound tokens) :
    (letStmt expr).Reads .stmt (.letWord :: tokens) := by
  refine Ensures.current (Ensures.bind (name_ensures _) ?_)
  rintro bound' _ ⟨text, after, named, rfl⟩
  refine Ensures.expect_only rfl fun value equals => Ensures.advance ?_
  obtain rfl : tokens = .ident text :: .assign :: value := by rw [← equals]; exact named
  refine Ensures.bind (reads .lowest (within.suffix ?_)) ?_
  · exact (List.suffix_cons _ value).trans (List.suffix_cons _ _)
  rintro e rest ⟨first, behind, used, rfl, supplied, derived⟩
  have whole : Supplies (.ident text :: .assign :: first :: behind)
      (.ident text :: .assign :: first :: used) rest.tail := .token _ (.token _ (.token _ supplied))
  refine (skip_reads whole (.bind text derived)).imp ?_
  rintro _ rest' ⟨used', supplied', derived'⟩
  exact ⟨_, _, used', rfl, supplied', derived'⟩

theorem returnStmt_reads (reads : ReadsExpr expr bound) (within : Within bound tokens) :
    (returnStmt expr).Reads .stmt (.returnWord :: tokens) := by
  refine Ensures.current (Ensures.advance (Ensures.bind (reads .lowest within) ?_))
  rintro e rest ⟨first, behind, used, rfl, supplied, derived⟩
  refine (skip_reads (.token first supplied) (.ret derived)).imp ?_
  rintro _ rest' ⟨used', supplied', derived'⟩
  exact ⟨_, _, used', rfl, supplied', derived'⟩

theorem exprStmt_reads (reads : ReadsExpr expr bound) (within : Within bound tokens) :
    (exprStmt expr).Reads .stmt tokens := by
  refine Ensures.traced _ (Ensures.current (Ensures.bind (reads .lowest within) ?_))
  rintro e rest ⟨first, behind, used, rfl, supplied, derived⟩
  refine (skip_reads supplied (.exprClause derived)).imp ?_
  rintro _ rest' ⟨used', supplied', derived'⟩
  exact ⟨_, _, used', rfl, supplied', derived'⟩

theorem statement_reads (reads : ReadsExpr expr bound) (within : Within bound tokens) :
    (statement expr).Reads .stmt tokens := by
  refine Ensures.current ?_
  split
  · next comes =>
    have found := @eq_cons_of_only? _ .letWord _ rfl comes
    rw [found]
    exact letStmt_reads reads (within.suffix (List.tail_suffix tokens))
  · next comes =>
    have found := @eq_cons_of_only? _ .returnWord _ rfl comes
    rw [found]
    exact returnStmt_reads reads (within.suffix (List.tail_suffix tokens))
  · exact exprStmt_reads reads within

/-- Statements are read up to a token that ends them, or to the end of the text. -/
theorem statements_ensures (reads : ReadsExpr expr bound) (ends : List TokenKind) (steps : Nat)
    (within : Within bound tokens) (enough : tokens.length ≤ steps) :
    (statements expr ends steps).Ensures tokens fun _ rest => ∃ used,
      Supplies tokens used rest ∧ Derives .stmts used ∧
        (rest = [] ∨ (rest.headD .eof).kind ∈ ends) := by
  induction steps generalizing tokens with
  | zero =>
    -- Each statement takes a token, so the steps run out only with the tokens.
    have none := List.eq_nil_of_length_eq_zero (Nat.le_zero.mp enough)
    exact Ensures.pure ⟨[], .nothing _, .noStmts, .inl none⟩
  | succ steps ih =>
    refine Ensures.current ?_
    split
    · next ending =>
      refine Ensures.pure ⟨[], .nothing _, .noStmts, ?_⟩
      -- None of the tokens is `eof`: where it is found, they are all read.
      rcases List.mem_cons.mp ending with eof | closing
      · cases tokens with
        | nil => exact .inl rfl
        | cons first tokens =>
          have same : first = .eof := by cases first <;> first | rfl | cases eof
          exact absurd (List.mem_cons_self ..) (same ▸ within.inside)
      · exact .inr closing
    · refine Ensures.bind (Ensures.attempt (statement_reads reads within)) ?_
      rintro _ rest ⟨s, rfl, first, behind, used, rfl, supplied, derived⟩
      refine Ensures.advance ?_
      have left : rest.tail <:+ first :: behind := supplied.suffix.trans (List.suffix_cons ..)
      have fewer : rest.tail.length ≤ steps :=
        Nat.le_trans supplied.length_le (Nat.le_of_succ_le_succ enough)
      refine Ensures.bind (ih (within.suffix left) fewer) ?_
      rintro ss rest' ⟨others, suppliedMore, derivedMore, atEnd⟩
      refine Ensures.pure ⟨first :: used ++ others, ?_, .moreStmts derived derivedMore, atEnd⟩
      exact .token first (supplied.trans suppliedMore)

/-- A block, its brace under the cursor. -/
theorem block_reads (reads : ReadsExpr expr bound) (within : Within bound tokens) :
    (block expr bound).Reads .block (.lbrace :: tokens) := by
  refine Ensures.current (Ensures.advance ?_)
  refine Ensures.bind (statements_ensures reads [.rbrace] bound within within.short) ?_
  rintro ss rest ⟨used, supplied, derived, atEnd⟩
  -- At the end of the text the brace is supplied.
  have closed : Supplies rest [.rbrace] rest.tail := by
    rcases atEnd with rfl | closing
    · exact .brace (.nothing [])
    · rw [@eq_cons_of_only? _ .rbrace rest rfl (List.mem_singleton.mp closing)]
      exact .token _ (.nothing _)
  exact Ensures.pure ⟨_, _, _, rfl, supplied.trans closed, .block derived⟩

/-! ## Operands -/

theorem leaf_reads {e : Expr} {first : Token} (derived : Derives .primary [first]) :
    (pure e : Rule Expr).Reads .expr (first :: tokens) :=
  Ensures.pure ⟨first, tokens, [], rfl, .nothing _, derived.expr_of_primary⟩

theorem integer_reads (text : String) : (integer text).Reads .expr (.int text :: tokens) := by
  refine Ensures.traced _ ?_
  split
  · next value reads => exact leaf_reads (.int reads)
  · exact Ensures.fail _

theorem prefixExpr_reads {op : Operator} (isSign : op = .bang ∨ op = .minus)
    (reads : ReadsExpr expr bound) (within : Within bound tokens) :
    (prefixExpr expr op).Reads .expr (op.token :: tokens) := by
  refine Ensures.traced _ (Ensures.advance (Ensures.bind (reads .prefixed within) ?_))
  rintro right rest ⟨first, behind, used, rfl, supplied, derived⟩
  exact Ensures.pure ⟨_, _, _, rfl, .token first supplied, derived.sign isSign⟩

theorem grouped_reads (reads : ReadsExpr expr bound) (within : Within bound tokens) :
    (grouped expr).Reads .expr (.lparen :: tokens) := by
  refine Ensures.advance (Ensures.bind (reads .lowest within) ?_)
  rintro inner rest ⟨first, behind, used, rfl, supplied, derived⟩
  refine Ensures.expect_only rfl fun last closed => ?_
  rw [closed] at supplied
  have whole := Derives.group derived
  exact Ensures.pure ⟨_, _, _, rfl, .token first supplied.snoc, whole.expr_of_primary⟩

theorem alternative_continues (reads : ReadsExpr expr bound) (within : Within bound tokens.tail) :
    (alternative expr bound).Continues
      (fun used => used = [] ∨ ∃ inner, used = .elseWord :: inner ∧ Derives .block inner)
      tokens := by
  refine Ensures.peek ?_
  split
  · next comes =>
    have found := @eq_cons_of_only? _ .elseWord _ rfl comes
    refine Ensures.advance (Ensures.expect_only rfl fun inside opened => ?_)
    rw [opened] at found
    rw [found] at within
    have left : inside <:+ _ :=
      (List.suffix_cons .lbrace inside).trans (List.suffix_cons .elseWord _)
    refine Ensures.bind (block_reads reads (within.suffix left)) ?_
    rintro no rest ⟨_, _, used, same, supplied, derived⟩
    cases same
    refine Ensures.pure ⟨_, ?_, .inr ⟨_, rfl, derived⟩⟩
    rw [found]
    exact .token _ (.token _ supplied)
  · exact Ensures.pure ⟨[], .nothing _, .inl rfl⟩

theorem conditional_reads (reads : ReadsExpr expr bound) (within : Within bound tokens) :
    (conditional expr bound).Reads .expr (.ifWord :: tokens) := by
  refine Ensures.expect_only rfl fun test opened => Ensures.advance ?_
  obtain rfl : tokens = .lparen :: test := opened
  refine Ensures.bind (reads .lowest (within.suffix (List.suffix_cons _ test))) ?_
  rintro cond rest ⟨first, behind, used, rfl, supplied, derived⟩
  refine Ensures.expect_only rfl fun rest₁ closed => ?_
  refine Ensures.expect_only rfl fun inside begun => ?_
  obtain rfl : rest₁ = .lbrace :: inside := begun
  rw [closed] at supplied
  have tested := supplied.trans (.token .rparen (.nothing _))
  have left : inside <:+ .lparen :: first :: behind :=
    (List.suffix_cons _ inside).trans
      (tested.suffix.trans ((List.suffix_cons first _).trans (List.suffix_cons _ _)))
  refine Ensures.bind (block_reads reads (within.suffix left)) ?_
  rintro yes rest₂ ⟨_, _, usedYes, same, suppliedYes, derivedYes⟩
  cases same
  have both := tested.trans (.token .lbrace suppliedYes)
  refine Ensures.bind
    (alternative_continues reads (within.suffix (suppliedYes.suffix.trans left))) ?_
  rintro no rest₃ ⟨_, suppliedNo, rfl | ⟨inner, rfl, derivedNo⟩⟩
  · have whole := Derives.ifThen derived derivedYes
    refine Ensures.pure ⟨_, _, _, rfl, .token _ (.token first ?_), whole.expr_of_primary⟩
    simpa using both.trans suppliedNo
  · have whole := Derives.ifElse derived derivedYes derivedNo
    refine Ensures.pure ⟨_, _, _, rfl, .token _ (.token first ?_), whole.expr_of_primary⟩
    simpa using both.trans suppliedNo

theorem function_reads (reads : ReadsExpr expr bound) (within : Within bound tokens) :
    (function expr bound).Reads .expr (.fnWord :: tokens) := by
  refine Ensures.expect_only rfl fun parameters opened => ?_
  obtain rfl : tokens = .lparen :: parameters := opened
  refine Ensures.bind (params_ensures bound _) ?_
  rintro ps _ ⟨names, after, listed, rfl⟩
  refine Ensures.expect_only rfl fun inside begun => ?_
  obtain rfl : after = .lbrace :: inside := begun
  obtain rfl : parameters = nameList names ++ .rparen :: .lbrace :: inside := listed
  have front := Supplies.of_append (.lparen :: (nameList names ++ [.rparen])) (.lbrace :: inside)
  rw [List.cons_append, List.append_assoc] at front
  have left : inside <:+ _ := (List.suffix_cons .lbrace inside).trans front.suffix
  refine Ensures.bind (block_reads reads (within.suffix left)) ?_
  rintro body rest ⟨_, _, used, same, supplied, derived⟩
  cases same
  have whole := Derives.fn names derived
  refine Ensures.pure ⟨_, _, _, rfl, ?_, whole.expr_of_primary⟩
  simpa using front.trans (.token .lbrace supplied)

theorem operand_reads (reads : ReadsExpr expr bound) (within : Within (bound + 1) tokens) :
    (operand expr bound).Reads .expr tokens := by
  refine Ensures.current ?_
  cases tokens with
  | nil => exact Ensures.fail _
  | cons first tokens =>
    have shorter := within.of_cons
    cases first with
    | ident text => exact leaf_reads (.ident text)
    | int text => exact integer_reads text
    | str text => exact leaf_reads (.str text)
    | trueWord => exact leaf_reads .trueWord
    | falseWord => exact leaf_reads .falseWord
    | bang => exact prefixExpr_reads (.inl rfl) reads shorter
    | minus => exact prefixExpr_reads (.inr rfl) reads shorter
    | lparen => exact grouped_reads reads shorter
    | ifWord => exact conditional_reads reads shorter
    | fnWord => exact function_reads reads shorter
    | _ => exact Ensures.fail _

/-! ## Expressions -/

/-- Only an operator or a parenthesis binds what stands before it. -/
theorem operator_or_lparen_of_lt {context : Precedence} {next : Token}
    (tighter : context < .ofKind next.kind) :
    (∃ op, op ≠ Operator.bang ∧ next = op.token) ∨ next = .lparen := by
  cases next with
  | plus => exact .inl ⟨.plus, by decide, rfl⟩
  | minus => exact .inl ⟨.minus, by decide, rfl⟩
  | asterisk => exact .inl ⟨.asterisk, by decide, rfl⟩
  | slash => exact .inl ⟨.slash, by decide, rfl⟩
  | lt => exact .inl ⟨.lt, by decide, rfl⟩
  | gt => exact .inl ⟨.gt, by decide, rfl⟩
  | eq => exact .inl ⟨.eq, by decide, rfl⟩
  | notEq => exact .inl ⟨.notEq, by decide, rfl⟩
  | lparen => exact .inr rfl
  | _ => exact absurd tighter (Precedence.not_lt_lowest context)

/-- What continues an expression. -/
def Lengthens (used : List Token) : Prop :=
  ∀ {u}, Derives .expr u → Derives .expr (u ++ used)

theorem extend_continues (reads : ReadsExpr expr bound) {context : Precedence} {e : Expr}
    (within : Within bound tokens.tail)
    (tighter : context < .ofKind (tokens.tail.headD .eof).kind) :
    (extend expr bound e (tokens.tail.headD .eof)).Continues Lengthens tokens := by
  unfold Rule.Continues
  refine Ensures.advance ?_
  generalize tokens.tail = behind at within tighter ⊢
  cases behind with
  | nil => exact absurd tighter (Precedence.not_lt_lowest context)
  | cons next after =>
    have inside := within.suffix (List.suffix_cons next after)
    obtain ⟨op, infixed, rfl⟩ | rfl := operator_or_lparen_of_lt tighter
    · -- The operator is found again in its token, so this is no call.
      have found : Operator.ofToken? ((op.token :: after).headD .eof) = some op :=
        Operator.ofToken?_token op
      rw [found]
      refine Ensures.traced _ (Ensures.advance (Ensures.bind (reads _ inside) ?_))
      rintro right rest ⟨first, rest', used, same, supplied, derived⟩
      refine Ensures.pure ⟨op.token :: first :: used, ?_, fun left => left.join infixed derived⟩
      rw [show after = _ from same]
      exact .token _ (.token _ supplied)
    · refine Ensures.bind (args_reads reads inside) ?_
      rintro arguments rest ⟨first, rest', used, same, supplied, derived⟩
      refine Ensures.pure ⟨first :: used, ?_, fun callee => callee.apply derived⟩
      rw [same]
      exact .token _ supplied

theorem extensions_continues (reads : ReadsExpr expr bound) (context : Precedence) (steps : Nat)
    (e : Expr) (within : Within bound tokens.tail) :
    (extensions expr context bound steps e).Continues Lengthens tokens := by
  have done {e : Expr} {tokens : List Token} :
      (pure e : Rule Expr).Continues Lengthens tokens := by
    refine Ensures.pure ⟨[], .nothing _, fun derived => ?_⟩
    rwa [List.append_nil]
  induction steps generalizing e tokens with
  | zero => exact done
  | succ steps ih =>
    refine Ensures.peek ?_
    split
    · next tighter =>
      refine Ensures.bind (extend_continues reads within tighter) ?_
      rintro longer rest ⟨used, supplied, lengthens⟩
      refine Ensures.imp (ih longer (within.suffix supplied.suffix)) ?_
      rintro _ rest' ⟨more, suppliedMore, lengthensMore⟩
      refine ⟨used ++ more, supplied.trans suppliedMore, fun {u} derived => ?_⟩
      rw [← List.append_assoc]
      exact lengthensMore (lengthens derived)
    · exact done

end

/-- Expressions are read as the grammar has them, whatever the bound. -/
theorem expression_reads (bound : Nat) : ReadsExpr (expression bound) bound := by
  induction bound with
  | zero => exact fun context _ _ => Ensures.traced _ (Ensures.fail _)
  | succ bound ih =>
    intro context tokens within
    refine Ensures.traced _ (Ensures.bind (operand_reads ih within) ?_)
    rintro left rest ⟨first, behind, used, rfl, supplied, derived⟩
    have inside := within.of_cons.suffix supplied.suffix
    refine Ensures.imp (extensions_continues ih context bound left inside) ?_
    rintro _ rest' ⟨more, suppliedMore, lengthens⟩
    exact ⟨first, behind, _, rfl, supplied.trans suppliedMore, lengthens derived⟩

/-! ## Programs -/

theorem derives_of_silent {tokens : List Token} (inside : .eof ∉ tokens)
    (silent : (Parse.ofTokens tokens).diagnostics = []) :
    ∃ k, Derives .stmts (tokens ++ List.replicate k .rbrace) := by
  have within : Within tokens.length tokens := ⟨Nat.le_refl _, inside⟩
  obtain ⟨_, _, used, supplied, derived, atEnd⟩ :=
    statements_ensures (expression_reads _) [] _ within within.short false 0 silent
  rcases atEnd with none | closing
  · rw [none] at supplied
    obtain ⟨k, rfl⟩ := Supplies.nil_right_iff.mp supplied
    exact ⟨k, derived⟩
  · cases closing

/-- What is generated is read, and so it is if closing braces at its end are missing. -/
theorem parse_of_derives {tokens : List Token} {k : Nat}
    (derived : Derives .stmts (tokens ++ List.replicate k .rbrace)) :
    ∃ ss, Parse.ofTokens tokens = ⟨⟨ss⟩, []⟩ ∧
      Parse.ofTokens (tokens ++ List.replicate k .rbrace) = ⟨⟨ss⟩, []⟩ := by
  obtain ⟨_, spelled⟩ := derived.spelled
  obtain ⟨ss, _, done⟩ := exists_parse_of_spells spelled
  refine ⟨ss, done _ (Supplies.nil_right_iff.mpr ⟨k, rfl⟩), done _ ?_⟩
  exact Supplies.nil_right_iff.mpr ⟨0, List.append_nil _⟩

/-- Tokens are read without a diagnostic exactly if the grammar generates them, once some closing
braces are put after them, and those do not change the program. -/
theorem ofTokens_accepts_iff_derives {tokens : List Token} (inside : .eof ∉ tokens) :
    ((Parse.ofTokens tokens).diagnostics = [] ↔
      ∃ k, Derives .stmts (tokens ++ List.replicate k .rbrace)) ∧
    ∀ k, Derives .stmts (tokens ++ List.replicate k .rbrace) →
      (Parse.ofTokens tokens).program =
        (Parse.ofTokens (tokens ++ List.replicate k .rbrace)).program := by
  refine ⟨⟨derives_of_silent inside, ?_⟩, ?_⟩
  · rintro ⟨k, derived⟩
    obtain ⟨ss, parsed, _⟩ := parse_of_derives derived
    rw [parsed]
    rfl
  · intro k derived
    obtain ⟨ss, parsed, parsed'⟩ := parse_of_derives derived
    rw [parsed, parsed']

/-- `if (x) -y` with the brace before the minus sign and none behind it. -/
theorem ofTokens_accepts_cut_off_block :
    .eof ∉ [Token.ifWord, .lparen, .ident "x", .rparen, .lbrace, .minus, .ident "y"] ∧
    (Parse.ofTokens
      [.ifWord, .lparen, .ident "x", .rparen, .lbrace, .minus, .ident "y"]).diagnostics = [] ∧
    (Parse.ofTokens [.ifWord, .lparen, .ident "x", .rparen, .lbrace, .minus, .ident "y"]).program =
      (Parse.ofTokens
        [.ifWord, .lparen, .ident "x", .rparen, .lbrace, .minus, .ident "y", .rbrace]).program := by
  have inside :
      .eof ∉ [Token.ifWord, .lparen, .ident "x", .rparen, .lbrace, .minus, .ident "y"] := by
    decide
  have negated := (Derives.ident "y").expr_of_primary.sign (.inr rfl)
  have body := Derives.moreStmts (.unended (.exprClause negated)) .noStmts
  have whole := Derives.ifThen (Derives.ident "x").expr_of_primary (.block body)
  have program := Derives.moreStmts (.unended (.exprClause whole.expr_of_primary)) .noStmts
  obtain ⟨accepts, same⟩ := ofTokens_accepts_iff_derives inside
  exact ⟨inside, accepts.mpr ⟨1, program⟩, same 1 program⟩

end TreeWalk
