import TreeWalk.Proofs.Bound
import TreeWalk.Proofs.Brackets
import TreeWalk.Proofs.Level

/-!
# Staying in front of a boundary

A statement ends with a semicolon, a block with its brace, a program with the end of the text.  What
a rule does in front of such a token, however wrong the tokens are, does not depend on what follows
it, as long as no more braces are opened in front of it than closed.  There is one way for a rule to
step over the token all the same: an expression is missing right there, the statement around it is
given up, and the sequence of statements that the token would have ended goes on behind it.

Results:
1. one lemma for each way to build a rule that stays in front of a boundary, unless an expression is
   missing at one (`Rule.Stays.bind` and so on);
2. every rule does: one lemma for each rule, collected by an induction on the bound
   (`expression_stays`), a block by looking at the brace that ends it (`block_stays`);
3. whether a statement steps over a boundary depends neither on what follows it nor on the bound
   (`attempt_uniform`).
-/

namespace TreeWalk

open Grammar

/-! ## Boundaries -/

/-- The ends of a statement, a block and a text. -/
inductive Boundary where
  | semicolon
  | rbrace
  | eof

namespace Boundary

def token : Boundary → Token
  | semicolon => .semicolon
  | rbrace => .rbrace
  | eof => .eof

/-- The kinds of the tokens that are boundaries. -/
def kinds : List TokenKind :=
  [.semicolon, .rbrace, .eof]

theorem kind_mem (stop : Boundary) : stop.token.kind ∈ kinds := by
  cases stop <;> decide

/-- No operator or argument list begins with a boundary. -/
theorem not_lt (stop : Boundary) (context : Precedence) :
    ¬ context < .ofKind stop.token.kind := by
  cases stop <;> exact Precedence.not_lt_lowest context

end Boundary

/-- An expression is missing where a token of one of the kinds stands. -/
def Missing (kinds : List TokenKind) (notes : List Note) : Prop :=
  ∃ kind ∈ kinds, .diagnostic (.noExpression kind) ∈ notes

namespace Missing

variable {kinds : List TokenKind} {notes notes' : List Note}

theorem mono (missing : Missing kinds notes) (kept : notes ⊆ notes') : Missing kinds notes' := by
  obtain ⟨kind, member, noted⟩ := missing
  exact ⟨kind, member, kept noted⟩

theorem append_left (missing : Missing kinds notes) : Missing kinds (notes ++ notes') :=
  missing.mono (List.subset_append_left ..)

theorem append_right (missing : Missing kinds notes') : Missing kinds (notes ++ notes') :=
  missing.mono (List.subset_append_right ..)

end Missing

/-! ## Staying in front of a boundary -/

namespace Rule

variable {α β : Type}

/-- The cursor stands on a token in front of the boundary, not on the boundary itself. -/
def Before (front : List Token) : Prop :=
  front ≠ []

/-- The boundary itself is passed at the end of a statement only. -/
def Ended (stop : Boundary) (front : List Token) : Prop :=
  front = [] → stop = .semicolon

/-- How a rule may leave the tokens in front of the boundary: as `post` says if it has a result, and
with the cursor on the boundary only for want of an expression if it fails. -/
def Leaves (stop : Boundary) (post : List Token → Prop) (left : List Token) (notes : List Note) :
    Option α → Prop
  | some _ => post left
  | none => left = [] → .diagnostic (.noExpression stop.token.kind) ∈ notes

/-- What the rule does with the tokens in front of the boundary is the same whatever follows the
boundary, which it does not go past, unless it notes that an expression is missing at a token of one
of the kinds. -/
def Stays (rule : Rule α) (stop : Boundary) (kinds : List TokenKind) (front : List Token)
    (post : List Token → Prop) : Prop :=
  ∀ tracing level,
    (∀ rest, Missing kinds (rule tracing level (front ++ stop.token :: rest)).notes) ∨
    ∃ value left notes after, left <:+ front ∧ Leaves stop post left notes value ∧
      ∀ rest, rule tracing level (front ++ stop.token :: rest) =
        ⟨value, left ++ stop.token :: rest, notes, after⟩

variable {stop : Boundary} {kinds : List TokenKind} {front : List Token}

theorem Before.of_kind {kind : TokenKind} (comes : (front.headD stop.token).kind = kind)
    (other : kind ∉ Boundary.kinds) : Before front := by
  rintro rfl
  exact other (comes ▸ stop.kind_mem)

theorem Before.of_only? {token : Token} (only : token.kind.only? = some token)
    (comes : (front.headD stop.token).kind = token.kind) (other : token.kind ∉ Boundary.kinds) :
    front = token :: front.tail := by
  cases front with
  | nil => exact absurd rfl (Before.of_kind comes other)
  | cons first front => exact congrArg (· :: front) (Token.eq_of_only? only comes)

/-- The token after the one under the cursor is at most the boundary. -/
theorem Before.tail_append (before : Before front) (token : Token) (rest : List Token) :
    (front ++ token :: rest).tail = front.tail ++ token :: rest :=
  List.tail_append_of_ne_nil before

theorem headD_append (front : List Token) (token : Token) (rest : List Token) :
    (front ++ token :: rest).headD .eof = front.headD token := by
  cases front <;> rfl

/-- A failure inside `attempt` is a result. -/
theorem attempt_some (rule : Rule α) (tracing : Bool) (level : Nat) (tokens : List Token) :
    ∃ value rest notes after,
      attempt rule tracing level tokens = ⟨some value, rest, notes, after⟩ := by
  rw [attempt]
  cases (rule tracing level tokens).value <;> exact ⟨_, _, _, _, rfl⟩

namespace Stays

variable {rule : Rule α} {next : α → Rule β} {mid post : List Token → Prop}

theorem pure {a : α} (holds : post front) : (Pure.pure a : Rule α).Stays stop kinds front post :=
  fun _ level => .inr ⟨some a, front, [], level, List.suffix_rfl, holds, fun _ => rfl⟩

theorem fail (diagnostic : Diagnostic) (before : Before front) :
    (Rule.fail diagnostic : Rule α).Stays stop kinds front post :=
  fun _ level => .inr ⟨none, front, [.diagnostic diagnostic], level, List.suffix_rfl,
    fun last => absurd last before, fun _ => rfl⟩

/-- The want of an expression is told of the token under the cursor, also where that is the
boundary. -/
theorem noExpression :
    (Rule.fail (.noExpression (front.headD stop.token).kind) : Rule α).Stays stop kinds front
      post := by
  refine fun _ level => .inr ⟨none, front, _, level, List.suffix_rfl, fun last => ?_, fun _ => rfl⟩
  subst last
  exact List.mem_cons_self ..

theorem bind (first : rule.Stays stop kinds front mid)
    (second : ∀ a left, left <:+ front → mid left → (next a).Stays stop kinds left post) :
    (rule >>= next).Stays stop kinds front post := by
  intro tracing level
  rcases first tracing level with missing | ⟨value, left, notes, after, within, leaves, run⟩
  · refine .inl fun rest => ?_
    rw [bind_apply]
    split
    · exact missing rest
    · exact (missing rest).append_left
  cases value with
  | none =>
    exact .inr ⟨none, left, notes, after, within, leaves, fun rest => bind_of_none (run rest) next⟩
  | some a =>
    rcases second a left within leaves tracing after with
      missing | ⟨value', left', notes', after', within', leaves', run'⟩
    · refine .inl fun rest => ?_
      rw [bind_of_some (run rest)]
      exact (missing rest).append_right
    · refine .inr ⟨value', left', notes ++ notes', after', within'.trans within, ?_,
        fun rest => ?_⟩
      · cases value' with
        | none => exact fun last => List.mem_append_right _ (leaves' last)
        | some b => exact leaves'
      · rw [bind_of_some (run rest), run']

/-- What a rule begins with only moves the cursor. -/
theorem moved {whole last : Rule β} {front' : List Token} (within : front' <:+ front)
    (step : ∀ tracing level rest, whole tracing level (front ++ stop.token :: rest) =
      last tracing level (front' ++ stop.token :: rest))
    (stays : last.Stays stop kinds front' post) : whole.Stays stop kinds front post := by
  intro tracing level
  rcases stays tracing level with missing | ⟨value, left, notes, after, within', leaves, run⟩
  · exact .inl fun rest => step tracing level rest ▸ missing rest
  · exact .inr ⟨value, left, notes, after, within'.trans within, leaves,
      fun rest => by rw [step, run]⟩

theorem traced (name : RuleName) (stays : rule.Stays stop kinds front post) :
    (traced name rule).Stays stop kinds front post := by
  intro tracing level
  cases tracing with
  | false => exact stays false level
  | true =>
    have kept (before behind : Note) (notes : List Note) : notes ⊆ before :: (notes ++ [behind]) :=
      fun _ noted => List.mem_cons_of_mem _ (List.mem_append_left _ noted)
    rcases stays true (level + 1) with missing | ⟨value, left, notes, after, within, leaves, run⟩
    · exact .inl fun rest => (missing rest).mono (kept _ _ _)
    · refine .inr ⟨value, left, .trace (.enter level name) ::
        (notes ++ [.trace (.leave (indent after) name)]), after - 1, within, ?_, fun rest => ?_⟩
      · cases value with
        | none => exact fun last => kept _ _ notes (leaves last)
        | some a => exact leaves
      · rw [traced_true, run]

/-- A statement that is given up with the cursor on the boundary is one that misses an expression
there. -/
theorem attempt (covered : stop = .semicolon ∨ stop.token.kind ∈ kinds)
    (stays : rule.Stays stop kinds front (Ended stop)) :
    (attempt rule).Stays stop kinds front (Ended stop) := by
  intro tracing level
  rcases stays tracing level with missing | ⟨value, left, notes, after, within, leaves, run⟩
  · refine .inl fun rest => ?_
    have missing := missing rest
    rw [Rule.attempt]
    split
    · exact missing.append_left
    · exact missing
  cases value with
  | some a =>
    refine .inr ⟨some (some a), left, notes, after, within, leaves, fun rest => ?_⟩
    rw [Rule.attempt, run]
  | none =>
    have given (rest : List Token) : Rule.attempt rule tracing level (front ++ stop.token :: rest) =
        ⟨some none, left ++ stop.token :: rest, notes ++ [.dropped], after⟩ := by
      rw [Rule.attempt, run]
    by_cases ended : Ended stop left
    · exact .inr ⟨some none, left, notes ++ [.dropped], after, within, ended, given⟩
    · obtain ⟨last, other⟩ := Classical.not_imp.mp ended
      refine .inl fun rest => ?_
      rw [given]
      exact ⟨_, covered.resolve_left other, List.mem_append_left _ (leaves last)⟩

/-- What stays in front of a brace stays in front of every boundary behind that. -/
theorem widen (stays : rule.Stays .rbrace kinds front post) (behind : List Token) :
    rule.Stays stop kinds (front ++ .rbrace :: behind) Before := by
  intro tracing level
  have join (left rest : List Token) : left ++ .rbrace :: behind ++ stop.token :: rest =
      left ++ Boundary.rbrace.token :: (behind ++ stop.token :: rest) :=
    List.append_assoc ..
  rcases stays tracing level with missing | ⟨value, left, notes, after, within, _, run⟩
  · refine .inl fun rest => ?_
    rw [join]
    exact missing _
  · have before : Before (left ++ .rbrace :: behind) :=
      List.append_ne_nil_of_right_ne_nil _ (List.cons_ne_nil _ _)
    refine .inr ⟨value, left ++ .rbrace :: behind, notes, after, ?_, ?_, fun rest => ?_⟩
    · exact (List.suffix_append_self_iff ..).mpr within
    · cases value with
      | none => exact fun last => absurd last before
      | some a => exact before
    · rw [join, run, join]

/-! ### The cursor -/

theorem current {next : Token → Rule β}
    (stays : (next (front.headD stop.token)).Stays stop kinds front post) :
    (Rule.current >>= next).Stays stop kinds front post := by
  refine moved List.suffix_rfl (fun tracing level rest => ?_) stays
  rw [current_bind, headD_append]

theorem peek {next : Token → Rule β} (before : Before front)
    (stays : (next (front.tail.headD stop.token)).Stays stop kinds front post) :
    (Rule.peek >>= next).Stays stop kinds front post := by
  refine moved List.suffix_rfl (fun tracing level rest => ?_) stays
  rw [peek_bind, before.tail_append, headD_append]

theorem advance {next : Unit → Rule β} (before : Before front)
    (stays : (next ()).Stays stop kinds front.tail post) :
    (Rule.advance >>= next).Stays stop kinds front post := by
  refine moved (List.tail_suffix front) (fun tracing level rest => ?_) stays
  rw [advance_bind, before.tail_append]

/-- What is expected is no boundary, so if it comes, the cursor still stands before that. -/
theorem expect {kind : TokenKind} {next : Unit → Rule β} (before : Before front)
    (other : kind ∉ Boundary.kinds)
    (stays : (front.tail.headD stop.token).kind = kind → Before front.tail →
      (next ()).Stays stop kinds front.tail post) :
    (Rule.expect kind >>= next).Stays stop kinds front post := by
  have seen (rest : List Token) :
      (front ++ stop.token :: rest).tail.headD .eof = front.tail.headD stop.token := by
    rw [before.tail_append, headD_append]
  by_cases comes : (front.tail.headD stop.token).kind = kind
  · refine moved (List.tail_suffix front) (fun tracing level rest => ?_)
      (stays comes (.of_kind comes other))
    rw [expect_bind tracing level _ (by rw [seen, comes]), before.tail_append]
  · intro tracing level
    refine .inr ⟨none, front, [.diagnostic (.unexpected kind (front.tail.headD stop.token).kind)],
      level, List.suffix_rfl, fun last => absurd last before, fun rest => ?_⟩
    rw [bind_of_none (expect_fails tracing level _ (by rwa [seen])), seen]

theorem skip {next : Unit → Rule β} (before : Before front)
    (stays : ∀ left, left <:+ front → Ended stop left → (next ()).Stays stop kinds left post) :
    (Rule.skip .semicolon >>= next).Stays stop kinds front post := by
  by_cases comes : (front.tail.headD stop.token).kind = .semicolon
  · have within := List.tail_suffix front
    refine moved within (fun tracing level rest => ?_) (stays _ within fun last => ?_)
    · rw [skip_bind, before.tail_append, headD_append, if_pos comes]
    · rw [last] at comes
      cases stop <;> first | rfl | cases comes
  · refine moved List.suffix_rfl (fun tracing level rest => ?_)
      (stays _ List.suffix_rfl fun last => absurd last before)
    rw [skip_bind, before.tail_append, headD_append, if_neg comes]

end Stays

end Rule

open Rule

/-! ## Lists -/

variable {stop : Boundary} {kinds : List TokenKind} {n : Nat} {front left : List Token}

theorem name_stays (before : Before front) : name.Stays stop kinds front Before :=
  Stays.expect before (by decide) fun _ before => Stays.current (Stays.pure before)

theorem moreParams_stays (steps : Nat) (before : Before front) :
    (moreParams steps).Stays stop kinds front Before := by
  induction steps generalizing front with
  | zero => exact Stays.pure before
  | succ steps ih =>
    refine Stays.peek before ?_
    split
    · next comma =>
      have after := Before.of_kind comma (by decide)
      refine Stays.advance before ((name_stays after).bind fun _ _ _ before => ?_)
      exact (ih before).bind fun _ _ _ before => Stays.pure before
    · exact Stays.pure before

theorem params_stays (bound : Nat) (before : Before front) :
    (params bound).Stays stop kinds front Before := by
  refine Stays.peek before ?_
  split
  · next closes => exact Stays.advance before (Stays.pure (.of_kind closes (by decide)))
  · refine (name_stays before).bind fun _ _ _ before => ?_
    refine (moreParams_stays bound before).bind fun _ _ _ before => ?_
    exact Stays.expect before (by decide) fun _ before => Stays.pure before

/-- No braces are left open in front of a boundary, and if there is a block, an expression may be
missing at its brace. -/
structure Closed (kinds : List TokenKind) (front : List Token) : Prop where
  closing : Closing front
  opens : .lbrace ∈ front → .rbrace ∈ kinds

/-- The bound is also large enough for the tokens in front of the boundary. -/
structure Near (kinds : List TokenKind) (n : Nat) (front : List Token) : Prop extends
    Closed kinds front where
  short : front.length < n

theorem Closed.behind (closed : Closed kinds front) (within : left <:+ front) :
    Closed kinds left :=
  ⟨fun left behind => closed.closing left (behind.trans within),
    fun opens => closed.opens (within.subset opens)⟩

namespace Near

theorem behind (near : Near kinds n front) (within : left <:+ front) : Near kinds n left :=
  ⟨near.toClosed.behind within, Nat.lt_of_le_of_lt within.length_le near.short⟩

theorem tail (near : Near kinds n front) : Near kinds n front.tail :=
  near.behind (List.tail_suffix front)

/-- A bound that is one smaller is still large enough behind the first token. -/
theorem tail_lt (near : Near kinds (n + 1) front) (before : Before front) :
    Near kinds n front.tail := by
  refine ⟨near.tail.toClosed, ?_⟩
  have short := near.short
  have some := List.length_pos_iff.mpr before
  rw [List.length_tail]
  omega

/-- The brace that ends a block is there, and what the block contains is near to it. -/
theorem exists_block (near : Near kinds n (.lbrace :: front)) :
    ∃ inside behind, front = inside ++ .rbrace :: behind ∧ Near kinds n inside := by
  have opens := near.opens (List.mem_cons_self ..)
  have closing := near.closing _ List.suffix_rfl
  rw [List.count_cons_self, List.count_cons_of_ne (by decide)] at closing
  rcases opened_or_exists_matched front with opened | ⟨inside, behind, rfl, matched⟩
  · have opened := opened front List.prefix_rfl
    omega
  · refine ⟨inside, behind, rfl, ⟨matched.closing, fun _ => opens⟩, ?_⟩
    have short := near.short
    rw [List.length_cons, List.length_append] at short
    omega

end Near

/-- A rule for nested expressions stays in front of every boundary that is near enough. -/
def StaysUpTo (kinds : List TokenKind) (n : Nat) (expr : Precedence → Rule Expr) : Prop :=
  ∀ context {stop : Boundary} {front : List Token}, Near kinds n front →
    (expr context).Stays stop kinds front Before

section

variable {expr : Precedence → Rule Expr}

theorem moreArgs_stays (stays : StaysUpTo kinds n expr) (steps : Nat) (near : Near kinds n front)
    (before : Before front) : (moreArgs expr steps).Stays stop kinds front Before := by
  induction steps generalizing front with
  | zero => exact Stays.pure before
  | succ steps ih =>
    refine Stays.peek before ?_
    split
    · next comma =>
      refine Stays.advance before (Stays.advance (.of_kind comma (by decide)) ?_)
      have near := near.tail.tail
      refine (stays .lowest near).bind fun _ _ within before => ?_
      exact (ih (near.behind within) before).bind fun _ _ _ before => Stays.pure before
    · exact Stays.pure before

theorem args_stays (stays : StaysUpTo kinds n expr) (bound : Nat) (near : Near kinds n front)
    (before : Before front) : (args expr bound).Stays stop kinds front Before := by
  refine Stays.peek before ?_
  split
  · next closes => exact Stays.advance before (Stays.pure (.of_kind closes (by decide)))
  · refine Stays.advance before ((stays .lowest near.tail).bind fun _ _ within before => ?_)
    refine (moreArgs_stays stays bound (near.tail.behind within) before).bind
      fun _ _ _ before => ?_
    exact Stays.expect before (by decide) fun _ before => Stays.pure before

/-! ## Statements -/

theorem letStmt_stays (stays : StaysUpTo kinds n expr) (near : Near kinds n front)
    (before : Before front) : (letStmt expr).Stays stop kinds front (Ended stop) := by
  refine Stays.current ((name_stays before).bind fun _ _ within before => ?_)
  refine Stays.expect before (by decide) fun _ before => Stays.advance before ?_
  refine (stays .lowest (near.behind within).tail.tail).bind fun _ _ _ before => ?_
  exact Stays.skip before fun _ _ ended => Stays.pure ended

theorem returnStmt_stays (stays : StaysUpTo kinds n expr) (near : Near kinds n front)
    (before : Before front) : (returnStmt expr).Stays stop kinds front (Ended stop) := by
  refine Stays.current (Stays.advance before ?_)
  refine (stays .lowest near.tail).bind fun _ _ _ before => ?_
  exact Stays.skip before fun _ _ ended => Stays.pure ended

theorem exprStmt_stays (stays : StaysUpTo kinds n expr) (near : Near kinds n front) :
    (exprStmt expr).Stays stop kinds front (Ended stop) := by
  refine Stays.traced _ (Stays.current ((stays .lowest near).bind fun _ _ _ before => ?_))
  exact Stays.skip before fun _ _ ended => Stays.pure ended

theorem statement_stays (stays : StaysUpTo kinds n expr) (near : Near kinds n front) :
    (statement expr).Stays stop kinds front (Ended stop) := by
  refine Stays.current ?_
  split
  · next word => exact letStmt_stays stays near (.of_kind word (by decide))
  · next word => exact returnStmt_stays stays near (.of_kind word (by decide))
  · exact exprStmt_stays stays near

/-- Wherever the statements inside a block end, it is not behind the brace of the block. -/
theorem statements_stays (stays : StaysUpTo kinds n expr) (steps : Nat) (opens : .rbrace ∈ kinds)
    (near : Near kinds n front) :
    (statements expr [.rbrace] steps).Stays .rbrace kinds front fun _ => True := by
  induction steps generalizing front with
  | zero => exact Stays.pure trivial
  | succ steps ih =>
    refine Stays.current ?_
    split
    · exact Stays.pure trivial
    · refine ((statement_stays stays near).attempt (.inr opens)).bind fun _ _ within ended => ?_
      refine Stays.advance (fun last => nomatch ended last) ?_
      exact (ih (near.behind within).tail).bind fun _ _ _ _ => Stays.pure trivial

theorem block_stays (stays : StaysUpTo kinds n expr) (bound : Nat) (near : Near kinds n front)
    (opened : (front.headD stop.token).kind = .lbrace) :
    (block expr bound).Stays stop kinds front Before := by
  obtain ⟨front, rfl⟩ : ∃ inside, front = .lbrace :: inside :=
    ⟨_, Before.of_only? rfl opened (by decide)⟩
  obtain ⟨inside, behind, rfl, inner⟩ := near.exists_block
  have opens := near.opens (List.mem_cons_self ..)
  refine Stays.current (Stays.advance (List.cons_ne_nil _ _) ?_)
  exact ((statements_stays stays bound opens inner).widen behind).bind fun _ _ _ before =>
    Stays.pure before

/-! ## Expressions -/

theorem integer_stays (text : String) (before : Before front) :
    (integer text).Stays stop kinds front Before := by
  refine Stays.traced _ ?_
  split
  · exact Stays.pure before
  · exact Stays.fail _ before

theorem prefixExpr_stays (stays : StaysUpTo kinds n expr) (op : Operator)
    (near : Near kinds (n + 1) front) (before : Before front) :
    (prefixExpr expr op).Stays stop kinds front Before := by
  refine Stays.traced _ (Stays.advance before ?_)
  exact (stays .prefixed (near.tail_lt before)).bind fun _ _ _ before => Stays.pure before

theorem grouped_stays (stays : StaysUpTo kinds n expr) (near : Near kinds (n + 1) front)
    (before : Before front) : (grouped expr).Stays stop kinds front Before := by
  refine Stays.advance before ?_
  refine (stays .lowest (near.tail_lt before)).bind fun _ _ _ before => ?_
  exact Stays.expect before (by decide) fun _ before => Stays.pure before

theorem alternative_stays (stays : StaysUpTo kinds n expr) (bound : Nat) (near : Near kinds n front)
    (before : Before front) : (alternative expr bound).Stays stop kinds front Before := by
  refine Stays.peek before ?_
  split
  · next word =>
    refine Stays.advance before (Stays.expect (.of_kind word (by decide)) (by decide) ?_)
    intro opened _
    exact (block_stays stays bound near.tail.tail opened).bind fun _ _ _ before =>
      Stays.pure before
  · exact Stays.pure before

theorem conditional_stays (stays : StaysUpTo kinds n expr) (bound : Nat)
    (near : Near kinds (n + 1) front) (before : Before front) :
    (conditional expr bound).Stays stop kinds front Before := by
  have near := near.tail_lt before
  refine Stays.expect before (by decide) fun _ before => Stays.advance before ?_
  refine (stays .lowest near.tail).bind fun _ _ within before => ?_
  have near := (near.tail.behind within).tail
  refine Stays.expect before (by decide) fun _ before => ?_
  refine Stays.expect before (by decide) fun opened _ => ?_
  refine (block_stays stays bound near.tail opened).bind fun _ _ within before => ?_
  exact (alternative_stays stays bound (near.tail.behind within) before).bind fun _ _ _ before =>
    Stays.pure before

theorem function_stays (stays : StaysUpTo kinds n expr) (bound : Nat)
    (near : Near kinds (n + 1) front) (before : Before front) :
    (function expr bound).Stays stop kinds front Before := by
  have near := near.tail_lt before
  refine Stays.expect before (by decide) fun _ before => ?_
  refine (params_stays bound before).bind fun _ _ within before => ?_
  refine Stays.expect before (by decide) fun opened _ => ?_
  exact (block_stays stays bound (near.behind within).tail opened).bind fun _ _ _ before =>
    Stays.pure before

/-- No operand begins with a boundary. -/
theorem operand_stays (stays : StaysUpTo kinds n expr) (bound : Nat)
    (near : Near kinds (n + 1) front) : (operand expr bound).Stays stop kinds front Before := by
  refine Stays.current ?_
  cases front with
  | nil => cases stop <;> exact Stays.noExpression
  | cons first front =>
    have before : Before (first :: front) := List.cons_ne_nil _ _
    cases first with
    | ident _ | str _ | trueWord | falseWord => exact Stays.pure before
    | int text => exact integer_stays text before
    | bang => exact prefixExpr_stays stays .bang near before
    | minus => exact prefixExpr_stays stays .minus near before
    | lparen => exact grouped_stays stays near before
    | ifWord => exact conditional_stays stays bound near before
    | fnWord => exact function_stays stays bound near before
    | _ => exact Stays.fail _ before

theorem extend_stays (stays : StaysUpTo kinds n expr) (bound : Nat) (left : Expr) (next : Token)
    (near : Near kinds (n + 1) front) (before : Before front) (continues : Before front.tail) :
    (extend expr bound left next).Stays stop kinds front Before := by
  have near := near.tail_lt before
  refine Stays.advance before ?_
  cases Operator.ofToken? next with
  | none =>
    exact (args_stays stays bound near continues).bind fun _ _ _ before => Stays.pure before
  | some op =>
    refine Stays.traced _ (Stays.advance continues ?_)
    exact (stays _ near.tail).bind fun _ _ _ before => Stays.pure before

theorem extensions_stays (stays : StaysUpTo kinds n expr) (context : Precedence)
    (bound steps : Nat) (left : Expr) (near : Near kinds (n + 1) front) (before : Before front) :
    (extensions expr context bound steps left).Stays stop kinds front Before := by
  induction steps generalizing front left with
  | zero => exact Stays.pure before
  | succ steps ih =>
    refine Stays.peek before ?_
    split
    · next tighter =>
      have continues : Before front.tail := by
        intro last
        rw [last] at tighter
        exact stop.not_lt context tighter
      refine (extend_stays stays bound left _ near before continues).bind
        fun longer _ within before => ?_
      exact ih longer (near.behind within) before
    · exact Stays.pure before

end

theorem expression_stays (kinds : List TokenKind) (bound : Nat) :
    StaysUpTo kinds bound (expression bound) := by
  induction bound with
  | zero => exact fun _ _ _ near => absurd near.short (Nat.not_lt_zero _)
  | succ bound ih =>
    intro context stop front near
    refine Stays.traced _ ((operand_stays ih bound near).bind fun left _ within before => ?_)
    exact extensions_stays ih context bound bound left (near.behind within) before

/-- Either an expression is missing whatever follows the boundary and whatever the bound, or what is
read in front of it is the same. -/
theorem attempt_uniform (stop : Boundary) (covered : stop = .semicolon ∨ stop.token.kind ∈ kinds)
    (closed : Closed kinds front) (tracing : Bool) (level : Nat) :
    (∀ bound rest, front.length < bound → Missing kinds
      (attempt (statement (expression bound)) tracing level (front ++ stop.token :: rest)).notes) ∨
    ∃ value left notes, left <:+ front ∧ Ended stop left ∧ ∀ bound rest, front.length < bound →
      attempt (statement (expression bound)) tracing level (front ++ stop.token :: rest) =
        ⟨some value, left ++ stop.token :: rest, notes, level⟩ := by
  have stays (bound : Nat) (large : front.length < bound) :=
    (statement_stays (expression_stays kinds bound) ⟨closed, large⟩ :
      (statement (expression bound)).Stays stop kinds front _).attempt covered tracing level
  -- All bounds agree on the shortest list, where they are large enough, hence on all of them.
  have alike (bound : Nat) (large : front.length < bound) :
      attempt (statement (expression bound)) tracing level (front ++ [stop.token]) =
        attempt (statement (expression (front.length + 1))) tracing level (front ++ [stop.token]) :=
    (statement_alike (expression_alike large (Nat.le_refl _))
      (Nat.le_of_eq List.length_append)).attempt.same tracing level
  by_cases missing : Missing kinds
    (attempt (statement (expression (front.length + 1))) tracing level
      (front ++ [stop.token])).notes
  · refine .inl fun bound rest large => ?_
    rcases stays bound large with missing | ⟨value, left, notes, after, _, _, run⟩
    · exact missing rest
    · rw [← alike bound large, run] at missing
      rwa [run]
  · rcases stays _ (Nat.lt_succ_self _) with
      missing' | ⟨value, left, notes, after, within, ended, run⟩
    · exact absurd (missing' []) missing
    obtain ⟨value, rfl⟩ : ∃ read, value = some read := by
      obtain ⟨read, rest, notes', after', attempted⟩ :=
        attempt_some (statement (expression (front.length + 1))) tracing level
          (front ++ [stop.token])
      exact ⟨read, congrArg Outcome.value ((run []).symm.trans attempted)⟩
    obtain rfl : after = level := (Grammatical.statement.restores _).attempt.eq_of_run (run [])
    refine .inr ⟨value, left, notes, within, ended, fun bound rest large => ?_⟩
    have same := alike bound large
    rcases stays bound large with missing' | ⟨value', left', notes', after', _, _, run'⟩
    · exact absurd (same ▸ missing' []) missing
    · rw [run, run'] at same
      injection same with values lefts noted afters
      rw [run', values, noted, afters, List.append_cancel_right lefts]

end TreeWalk
