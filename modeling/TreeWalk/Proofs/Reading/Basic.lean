import TreeWalk.Parser
import TreeWalk.Proofs.Run
import TreeWalk.Proofs.Spelling
import TreeWalk.Proofs.Supply

/-!
# Reading a spelling

What it means that the grammar reads the tokens of a phrase as that phrase, wherever they stand.  An
expression is read by an operand and then by operators and argument lists, as long as they bind
tighter than the context.  So what is said of an expression is how far reading gets: to the end of
the expression, ready to go on with what follows.

Results:
1. in a context that lets nothing of what follows in, an expression is read and no more
   (`ReadsAs.expression`, `ReadsAs.lowest`).
-/

namespace TreeWalk

open Rule Grammar

/-! ## What stands around an expression -/

/-- How tightly the first of some tokens binds the operand before it. -/
def pull (after : List Token) : Nat :=
  (Precedence.ofKind (after.headD .eof).kind).level

/-- The tokens after an expression leave it as it is: no operator or argument list takes it apart,
and no `else` belongs to it. -/
def Spares (strength : Nat) (after : List Token) : Prop :=
  pull after ≤ strength ∧ (after.headD .eof).kind ≠ .elseWord

/-- In the context, an expression of the given strength is read to its end. -/
def Fits (context : Precedence) (strength : Nat) : Prop :=
  context < .call ∧ (context.level < strength ∨ prefixStrength ≤ strength)

theorem Spares.cons {strength : Nat} {first : Token}
    (weak : (Precedence.ofKind first.kind).level ≤ strength) (notElse : first.kind ≠ .elseWord)
    (after : List Token) : Spares strength (first :: after) :=
  ⟨weak, notElse⟩

theorem Spares.mono {m n : Nat} {after : List Token} (spares : Spares m after) (le : m ≤ n) :
    Spares n after :=
  ⟨Nat.le_trans spares.1 le, spares.2⟩

theorem Fits.mono {context : Precedence} {m n : Nat} (fits : Fits context m) (le : m ≤ n) :
    Fits context n := by
  refine ⟨fits.1, ?_⟩
  rcases fits.2 with loose | full
  · exact .inl (Nat.lt_of_lt_of_le loose le)
  · exact .inr (Nat.le_trans full le)

/-- The precedence of an operator is its strength. -/
theorem level_ofKind_token (op : Operator) :
    (Precedence.ofKind op.token.kind).level = op.strength := by
  cases op <;> rfl

theorem Spares.operator {op : Operator} {strength : Nat} (weak : op.strength ≤ strength)
    (after : List Token) : Spares strength (op.token :: after) := by
  refine .cons (level_ofKind_token op ▸ weak) ?_ after
  cases op <;> decide

theorem Fits.right {op : Operator} {strength : Nat} (tighter : op.strength < strength) :
    Fits (.ofKind op.token.kind) strength := by
  refine ⟨?_, .inl (level_ofKind_token op ▸ tighter)⟩
  cases op <;> decide

theorem strength_pos {strength : Nat} {e : Expr} {tokens : List Token}
    (spelled : Spells (.expr strength e) tokens) : 0 < strength := by
  cases spelled with
  | @infixOp op _ _ _ _ _ _ infixed _ _ _ _ =>
    cases op with
    | bang => exact absurd rfl infixed
    | _ => decide
  | _ => decide

theorem written_of_exprHead {first : Token} (head : first.kind ∈ exprHeads) : first ≠ .rbrace := by
  rintro rfl
  revert head
  decide

theorem written_of_stmtHead {first : Token} (head : first.kind ∈ stmtHeads) : first ≠ .rbrace := by
  rintro rfl
  revert head
  decide

/-! ## What is read -/

/-- Tokens that spell a phrase are read as that phrase, apart from the tokens that its expression
statements keep.  What those are depends on the spelling alone, neither on what follows nor on
whether closing braces at the end of the text are written. -/
def ReadsAs : Phrase → List Token → Prop
  | .expr strength e, used =>
    ∃ e', e'.bare = e.bare ∧ ∀ {bound context tokens after},
      Supplies tokens used after → tokens.length ≤ bound + 1 → Fits context strength →
      Spares strength after →
      ∃ steps rest, after.length ≤ steps ∧ rest.tail = after ∧
        expression (bound + 1) context false 0 tokens =
          extensions (expression bound) context bound steps e' false 0 rest
  | .moreArgs es, used =>
    ∃ es', Expr.bares es' = Expr.bares es ∧ ∀ {bound} (steps) {tokens after},
      Supplies tokens.tail used (.rparen :: after) → tokens.tail.length ≤ bound →
      tokens.tail.length ≤ steps →
      ∃ rest, rest.tail = .rparen :: after ∧
        moreArgs (expression bound) steps false 0 tokens = ⟨some es', rest, [], 0⟩
  | .stmt s, used =>
    ∃ s', s'.bare = s.bare ∧ ∀ {bound tokens after},
      Supplies tokens used after → tokens.length ≤ bound → Spares 0 after →
      ∃ rest, rest.tail = (if (after.headD .eof).kind = .semicolon then after.tail else after) ∧
        statement (expression bound) false 0 tokens = ⟨some s', rest, [], 0⟩
  | .stmts ss, used =>
    ∃ ss', Stmt.bares ss' = Stmt.bares ss ∧ ∀ {bound} (steps ends) {tokens after},
      Supplies tokens used after → tokens.length ≤ bound → tokens.length ≤ steps →
      (∀ kind ∈ ends, kind = TokenKind.rbrace) →
      (after = [] ∨ (after.headD .eof).kind ∈ ends) →
      statements (expression bound) ends steps false 0 tokens = ⟨some ss', after, [], 0⟩
  | .block b, used =>
    ∃ b', b'.bare = b.bare ∧ ∀ {bound tokens after},
      Supplies tokens used after → tokens.length ≤ bound + 1 →
      ∃ rest, rest.tail = after ∧
        block (expression bound) bound false 0 tokens = ⟨some b', rest, [], 0⟩

theorem extensions_of_loose {context : Precedence} {rest : List Token}
    (expr : Precedence → Rule Expr) (bound steps : Nat) (e : Expr)
    (loose : pull rest.tail ≤ context.level) :
    extensions expr context bound steps e false 0 rest = ⟨some e, rest, [], 0⟩ := by
  cases steps with
  | zero => rfl
  | succ steps =>
    rw [extensions, peek_bind, if_neg]
    · rfl
    · exact Nat.not_lt.mpr loose

/-- In a context that lets nothing of what follows in, an expression is read and no more. -/
theorem ReadsAs.expression {strength : Nat} {e : Expr} {used : List Token}
    (spelled : Spells (.expr strength e) used) (reads : ReadsAs (.expr strength e) used) :
    ∃ e', e'.bare = e.bare ∧ ∀ {bound context tokens after},
      Supplies tokens used after → tokens.length ≤ bound → Fits context strength →
      Spares strength after → pull after ≤ context.level →
      ∃ rest, rest.tail = after ∧
        Grammar.expression bound context false 0 tokens = ⟨some e', rest, [], 0⟩ := by
  obtain ⟨e', same, reached⟩ := reads
  refine ⟨e', same, fun {bound context tokens after} supplied short fits spares loose => ?_⟩
  obtain ⟨first, used, rfl, head⟩ := spelled.exists_head_of_expr
  obtain ⟨tokens, rfl, _⟩ := (Supplies.cons_iff (written_of_exprHead head)).mp supplied
  cases bound with
  | zero => exact absurd short (Nat.not_succ_le_zero _)
  | succ bound =>
    obtain ⟨steps, rest, _, left, run⟩ := reached supplied short fits spares
    exact ⟨rest, left, run.trans (extensions_of_loose _ _ _ _ (left ▸ loose))⟩

theorem ReadsAs.lowest {strength : Nat} {e : Expr} {used : List Token}
    (spelled : Spells (.expr strength e) used) (reads : ReadsAs (.expr strength e) used) :
    ∃ e', e'.bare = e.bare ∧ ∀ {bound tokens after},
      Supplies tokens used after → tokens.length ≤ bound → Spares 0 after →
      ∃ rest, rest.tail = after ∧
        Grammar.expression bound .lowest false 0 tokens = ⟨some e', rest, [], 0⟩ := by
  obtain ⟨e', same, done⟩ := reads.expression spelled
  refine ⟨e', same, fun supplied short spares => ?_⟩
  exact done supplied short ⟨by decide, .inl (strength_pos spelled)⟩
    (spares.mono (Nat.zero_le _)) spares.1

end TreeWalk
