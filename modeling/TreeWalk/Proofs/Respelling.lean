import TreeWalk.Proofs.Derivation

/-!
# Respelling

Whatever the grammar generates spells something.  The grammar lets an operator or a parenthesis that
begins a statement stand right behind another statement, and then the two are one: `a -b` is a
difference and `f (x)` a call.  So statements are merged until no such pair is left.

Results:
1. spelled expressions take argument lists and operators with another expression behind them, each
   argument list and operand at the place that its strength gives it (`Spells.append_args`,
   `Spells.append_infix`);
2. an expression and one that begins with a parenthesis or a minus sign spell one expression
   together (`Spells.merge`);
3. what is derived has a spelling (`Derives.spelled`).
-/

namespace TreeWalk

namespace Spells

/-- An argument list goes to the last operand: if everything that can be called takes it, every
expression does, with its strength unchanged. -/
theorem append_args {v : List Token} {strength : Nat} {e : Expr} {t : List Token}
    (takes : ∀ {callee target}, Spells (.expr fullStrength callee) target →
      ∃ e', Spells (.expr fullStrength e') (target ++ v))
    (spelled : Spells (.expr strength e) t) : ∃ e', Spells (.expr strength e') (t ++ v) := by
  by_cases full : strength = fullStrength
  · subst full
    exact takes spelled
  · -- What binds less than fully ends in an operand, and that one takes the list.
    cases spelled with
    | prefixOp sign enough operand =>
      obtain ⟨_, longer⟩ := append_args takes operand
      exact ⟨_, .prefixOp sign enough longer⟩
    | infixOp infixed enough tighter left right =>
      obtain ⟨_, longer⟩ := append_args takes right
      have joined := Spells.infixOp infixed enough tighter left longer
      rw [← List.cons_append, ← List.append_assoc] at joined
      exact ⟨_, joined⟩
    | _ => exact absurd rfl full
termination_by t.length
decreasing_by
  all_goals
    subst_vars
    simp only [List.length_append, List.length_cons]
    omega

/-- An operator and its right operand go behind an expression: to all of it, or to its last operand
if that one's operator binds more weakly. -/
theorem append_infix {op : Operator} {m n : Nat} {left right : Expr} {u v : List Token}
    (spelled : Spells (.expr m left) u) (infixed : op ≠ .bang) (tighter : op.strength < n)
    (after : Spells (.expr n right) v) :
    ∃ k e, min m op.strength ≤ k ∧ Spells (.expr k e) (u ++ op.token :: v) := by
  by_cases enough : op.strength ≤ m
  · exact ⟨_, _, Nat.min_le_right .., .infixOp infixed enough tighter spelled after⟩
  · -- What binds more weakly than the operator is an infix, and goes on with its right operand.
    have weak : m < prefixStrength := Nat.lt_of_lt_of_le (Nat.not_le.mp enough)
      (by cases op <;> decide)
    cases spelled with
    | @infixOp op' _ n' _ _ _ _ infixed' enough' tighter' first last =>
      obtain ⟨k, _, bound, longer⟩ := append_infix last infixed tighter after
      have strong : op'.strength < k :=
        Nat.lt_of_lt_of_le (Nat.lt_min.mpr ⟨tighter', Nat.not_le.mp enough⟩) bound
      have joined := Spells.infixOp infixed' enough' strong first longer
      rw [← List.cons_append, ← List.append_assoc] at joined
      exact ⟨_, _, Nat.min_le_left .., joined⟩
    | _ => exact absurd weak (by decide)
termination_by u.length
decreasing_by
  subst_vars
  simp only [List.length_append, List.length_cons]
  omega

/-- Right behind another expression, a minus sign is the operator between the two and a parenthesis
opens an argument list. -/
theorem merge {m n : Nat} {first second : Expr} {u w : List Token}
    (spelled : Spells (.expr m first) u) (next : Spells (.expr n second) w)
    (continues : w.head? = some .lparen ∨ w.head? = some .minus) :
    ∃ k e, Spells (.expr k e) (u ++ w) := by
  -- The sign or parenthesis stands in the leftmost operand of the second expression, which is
  -- merged first; the rest of that expression goes behind the result.
  cases next with
  | group inner =>
    obtain ⟨_, longer⟩ := spelled.append_args fun target => ⟨_, .call target inner .noMoreArgs⟩
    exact ⟨_, _, longer⟩
  | prefixOp sign enough operand =>
    rcases sign with rfl | rfl
    · rcases continues with same | same <;> cases same
    · have tighter : Operator.strength .minus < _ := Nat.lt_of_lt_of_le (by decide) enough
      obtain ⟨_, _, _, longer⟩ := spelled.append_infix (by decide) tighter operand
      exact ⟨_, _, longer⟩
  | infixOp infixed enough tighter left right =>
    obtain ⟨head, rest, rfl, _⟩ := left.exists_head_of_expr
    obtain ⟨_, _, longer⟩ := spelled.merge left continues
    obtain ⟨_, _, _, joined⟩ := longer.append_infix infixed tighter right
    rw [List.append_assoc] at joined
    exact ⟨_, _, joined⟩
  | callNone target =>
    obtain ⟨head, rest, rfl, _⟩ := target.exists_head_of_expr
    obtain ⟨_, _, longer⟩ := spelled.merge target continues
    obtain ⟨_, called⟩ := longer.append_args fun callee => ⟨_, .callNone callee⟩
    rw [List.append_assoc] at called
    exact ⟨_, _, called⟩
  | call target arg more =>
    obtain ⟨head, rest, rfl, _⟩ := target.exists_head_of_expr
    obtain ⟨_, _, longer⟩ := spelled.merge target continues
    obtain ⟨_, called⟩ := longer.append_args fun callee => ⟨_, .call callee arg more⟩
    rw [List.append_assoc] at called
    exact ⟨_, _, called⟩
  | _ => rcases continues with same | same <;> cases same
termination_by w.length
decreasing_by
  all_goals
    subst_vars
    simp only [List.length_append, List.length_cons]
    omega

theorem merge_stmt {s next : Stmt} {u w : List Token} (spelled : Spells (.stmt s) u)
    (spelledNext : Spells (.stmt next) w)
    (continues : w.head? = some .lparen ∨ w.head? = some .minus) :
    ∃ s', Spells (.stmt s') (u ++ w) := by
  cases spelledNext with
  | expr kept behind =>
    cases spelled with
    | bind name value =>
      obtain ⟨_, _, merged⟩ := value.merge behind continues
      exact ⟨_, .bind name merged⟩
    | ret value =>
      obtain ⟨_, _, merged⟩ := value.merge behind continues
      exact ⟨_, .ret merged⟩
    | expr _ value =>
      obtain ⟨_, _, merged⟩ := value.merge behind continues
      exact ⟨_, .expr kept merged⟩
  | _ => rcases continues with same | same <;> cases same

/-- A statement goes before any others, merged with the first of them where that one continues
it. -/
theorem exists_juxtaposed {s : Stmt} {ss : List Stmt} {u v : List Token}
    (first : Spells (.stmt s) u) (rest : Spells (.stmts ss) v) :
    ∃ ss', Spells (.stmts ss') (u ++ v) := by
  by_cases continues : v.head? = some .lparen ∨ v.head? = some .minus
  · cases rest with
    | noStmts => rcases continues with same | same <;> cases same
    | ended next others =>
      obtain ⟨_, _, rfl, _⟩ := next.exists_head_of_stmt
      obtain ⟨_, merged⟩ := first.merge_stmt next continues
      have both := Spells.ended merged others
      rw [List.append_assoc] at both
      exact ⟨_, both⟩
    | juxtaposed next others notCall notMinus =>
      obtain ⟨_, _, rfl, _⟩ := next.exists_head_of_stmt
      obtain ⟨_, merged⟩ := first.merge_stmt next continues
      have both := Spells.juxtaposed merged others notCall notMinus
      rw [List.append_assoc] at both
      exact ⟨_, both⟩
  · obtain ⟨notCall, notMinus⟩ := not_or.mp continues
    exact ⟨_, .juxtaposed first rest notCall notMinus⟩

end Spells

/-! ## Derivations -/

/-- What the tokens that are generated from a nonterminal spell. -/
def Nonterminal.Spelled : Nonterminal → List Token → Prop
  | stmts, u => ∃ ss, Spells (.stmts ss) u
  | stmt, u => ∃ s t, Spells (.stmt s) t ∧ (u = t ∨ u = t ++ [.semicolon])
  | clause, u => ∃ s, Spells (.stmt s) u
  | block, u => ∃ b, Spells (.block b) u
  | expr, u => ∃ n e, Spells (.expr n e) u
  | unary, u => ∃ n e, prefixStrength ≤ n ∧ Spells (.expr n e) u
  | applied, u | primary, u => ∃ e, Spells (.expr fullStrength e) u
  | args, v => ∀ {callee target}, Spells (.expr fullStrength callee) target →
      ∃ e, Spells (.expr fullStrength e) (target ++ v)
  | moreArgs, u => ∃ es, Spells (.moreArgs es) u

theorem Derives.spelled {n : Nonterminal} {u : List Token} (derived : Derives n u) :
    n.Spelled u := by
  induction derived with
  | noStmts => exact ⟨_, .noStmts⟩
  | moreStmts _ _ ihFirst ihRest =>
    obtain ⟨_, t, first, alone | closed⟩ := ihFirst
    · subst alone
      obtain ⟨_, rest⟩ := ihRest
      exact first.exists_juxtaposed rest
    · subst closed
      obtain ⟨_, rest⟩ := ihRest
      have both := Spells.ended first rest
      rw [List.append_cons] at both
      exact ⟨_, both⟩
  | unended _ ih =>
    obtain ⟨_, spelled⟩ := ih
    exact ⟨_, _, spelled, .inl rfl⟩
  | ended _ ih =>
    obtain ⟨_, spelled⟩ := ih
    exact ⟨_, _, spelled, .inr rfl⟩
  | bind name _ ih =>
    obtain ⟨_, _, value⟩ := ih
    exact ⟨_, .bind name value⟩
  | ret _ ih =>
    obtain ⟨_, _, value⟩ := ih
    exact ⟨_, .ret value⟩
  | exprClause _ ih =>
    obtain ⟨_, _, value⟩ := ih
    exact ⟨_, .expr .eof value⟩
  | block _ ih =>
    obtain ⟨_, inside⟩ := ih
    exact ⟨_, .block inside⟩
  | operand _ ih =>
    obtain ⟨_, _, _, spelled⟩ := ih
    exact ⟨_, _, spelled⟩
  | @infixOp op _ _ infixed _ _ ihLeft ihRight =>
    obtain ⟨_, _, left⟩ := ihLeft
    obtain ⟨_, _, enough, right⟩ := ihRight
    have tighter : op.strength < prefixStrength := by cases op <;> decide
    obtain ⟨_, _, _, joined⟩ :=
      left.append_infix infixed (Nat.lt_of_lt_of_le tighter enough) right
    exact ⟨_, _, joined⟩
  | prefixOp isSign _ ih =>
    obtain ⟨_, _, enough, operand⟩ := ih
    exact ⟨_, _, Nat.le_refl _, .prefixOp isSign enough operand⟩
  | unsigned _ ih =>
    obtain ⟨_, spelled⟩ := ih
    exact ⟨_, _, by decide, spelled⟩
  | bare _ ih => exact ih
  | call _ _ ihCallee ihArgs =>
    obtain ⟨_, callee⟩ := ihCallee
    exact ihArgs callee
  | ident name => exact ⟨_, .ident name⟩
  | int reads => exact ⟨_, .int reads⟩
  | str text => exact ⟨_, .str text⟩
  | trueWord => exact ⟨_, .trueWord⟩
  | falseWord => exact ⟨_, .falseWord⟩
  | group _ ih =>
    obtain ⟨_, _, inner⟩ := ih
    exact ⟨_, .group inner⟩
  | ifThen _ _ ihTest ihYes =>
    obtain ⟨_, _, test⟩ := ihTest
    obtain ⟨_, yes⟩ := ihYes
    exact ⟨_, .ifThen test yes⟩
  | ifElse _ _ _ ihTest ihYes ihNo =>
    obtain ⟨_, _, test⟩ := ihTest
    obtain ⟨_, yes⟩ := ihYes
    obtain ⟨_, no⟩ := ihNo
    exact ⟨_, .ifElse test yes no⟩
  | fn names _ ih =>
    obtain ⟨_, body⟩ := ih
    exact ⟨_, .fn names body⟩
  | noArgs => exact fun callee => ⟨_, .callNone callee⟩
  | someArgs _ _ ihArg ihMore =>
    obtain ⟨_, _, arg⟩ := ihArg
    obtain ⟨_, more⟩ := ihMore
    exact fun callee => ⟨_, .call callee arg more⟩
  | noMoreArgs => exact ⟨_, .noMoreArgs⟩
  | moreArgs _ _ ihArg ihMore =>
    obtain ⟨_, _, arg⟩ := ihArg
    obtain ⟨_, more⟩ := ihMore
    exact ⟨_, .moreArgs arg more⟩

end TreeWalk
