import Mathlib
import TreeWalk.Proofs.Arithmetic
import TreeWalk.Proofs.Reading.Stmt
import TreeWalk.Proofs.Relexing
import TreeWalk.Proofs.Resync
import TreeWalk.Session

/-!
# Integers in texts

The sign of an integer is an operator and no part of its literal.  So literals go up to the largest
64-bit integer and no further, and what an integer prints as can be read again unless it is the
smallest one, whose digits alone are one too many.

Results:
1. a literal, alone or behind a minus sign, is read as a statement of its own, or reported and given
   up (`Parse.ofTokens_int`, `Parse.ofTokens_badInt`, `Parse.ofTokens_negative`);
2. a text of digits is the literal that they stand for up to the boundary, and what an integer
   prints as comes to that integer (`integer_text_reads_back`).
-/

namespace TreeWalk

open Grammar Rule

/-! ## Literals -/

variable {text : String} {v : Int64}

theorem expression_int (reads : Decimal.int64? text = some v) (bound : Nat) (context : Precedence) :
    expression (bound + 1) context false 0 [.int text] = ⟨some (.int v), [.int text], [], 0⟩ := by
  have leaf : operand (expression bound) bound false 0 [.int text] =
      ⟨some (.int v), [.int text], [], 0⟩ := by
    show integer text false 0 [.int text] = _
    rw [integer, reads]
    rfl
  exact (expression_of_operand leaf).trans
    (extensions_last (Nat.le_refl [Token.int text].length) context bound bound _ false 0)

theorem expression_badInt (fails : Decimal.int64? text = none) (bound : Nat)
    (context : Precedence) :
    expression (bound + 1) context false 0 [.int text] =
      ⟨none, [.int text], [.diagnostic (.badInteger text)], 0⟩ := by
  have leaf : operand (expression bound) bound false 0 [.int text] =
      ⟨none, [.int text], [.diagnostic (.badInteger text)], 0⟩ := by
    show integer text false 0 [.int text] = _
    rw [integer, fails]
    rfl
  rw [expression, traced_false, bind_of_none leaf]

theorem expression_negative (reads : Decimal.int64? text = some v) :
    expression 2 .lowest false 0 [.minus, .int text] =
      ⟨some (.prefixOp .minus (.int v)), [.int text], [], 0⟩ := by
  have signed : operand (expression 1) 1 false 0 [.minus, .int text] =
      ⟨some (.prefixOp .minus (.int v)), [.int text], [], 0⟩ := by
    show prefixExpr (expression 1) .minus false 0 [.minus, .int text] = _
    rw [prefixExpr, traced_false, advance_bind]
    exact bind_of_clean (expression_int reads 0 .prefixed) _
  exact (expression_of_operand signed).trans
    (extensions_last (Nat.le_refl [Token.int text].length) .lowest 1 1 _ false 0)

namespace Parse

/-- An expression that takes up all tokens is the only statement. -/
theorem ofTokens_of_expression {first last : Token} {tokens : List Token} {e : Expr}
    (head : first.kind ∈ exprHeads)
    (run : expression (tokens.length + 1) .lowest false 0 (first :: tokens) =
      ⟨some e, [last], [], 0⟩) :
    ofTokens (first :: tokens) = ⟨⟨[.expr first e]⟩, []⟩ := by
  have begins : first.kind ∉ TokenKind.eof :: [] :=
    begins_of_stmtHead (List.mem_cons_of_mem _ (List.mem_cons_of_mem _ head)) nofun
  have read : statement (expression (tokens.length + 1)) false 0 (first :: tokens) =
      ⟨some (.expr first e), [last], [], 0⟩ := by
    rw [statement_of_exprHead head, exprStmt, traced_false, current_bind, bind_of_clean run,
      skip_bind]
    rfl
  have runs := statements_step begins read (statements_nil [] tokens.length false 0)
  exact congrArg (fun outcome => Parse.mk ⟨outcome.value.getD []⟩ outcome.notes) runs

theorem ofTokens_int (reads : Decimal.int64? text = some v) :
    ofTokens [.int text] = ⟨⟨[.expr (.int text) (.int v)]⟩, []⟩ :=
  ofTokens_of_expression (List.mem_cons_of_mem _ (List.mem_cons_self ..))
    (expression_int reads 0 .lowest)

theorem ofTokens_negative (reads : Decimal.int64? text = some v) :
    ofTokens [.minus, .int text] = ⟨⟨[.expr .minus (.prefixOp .minus (.int v))]⟩, []⟩ :=
  ofTokens_of_expression (by decide) (expression_negative reads)

/-- A literal out of range leaves nothing but its report. -/
theorem ofTokens_badInt (fails : Decimal.int64? text = none) :
    ofTokens [.int text] = ⟨⟨[]⟩, [.diagnostic (.badInteger text), .dropped]⟩ := by
  have head : (Token.int text).kind ∈ exprHeads := List.mem_cons_of_mem _ (List.mem_cons_self ..)
  have begins : (Token.int text).kind ∉ TokenKind.eof :: [] :=
    begins_of_stmtHead (List.mem_cons_of_mem _ (List.mem_cons_of_mem _ head)) nofun
  have read : attempt (statement (expression 1)) false 0 [.int text] =
      ⟨some none, [.int text], [.diagnostic (.badInteger text), .dropped], 0⟩ := by
    rw [attempt, statement_of_exprHead head, exprStmt, traced_false, current_bind,
      bind_of_none (expression_badInt fails 0 .lowest)]
    rfl
  have runs := statements_cons begins read (statements_nil [] 0 false 0)
  exact congrArg (fun outcome => Parse.mk ⟨outcome.value.getD []⟩ outcome.notes) runs

end Parse

/-! ## Texts of digits -/

theorem lex_of_digits {d : String} (written : d ≠ "")
    (digits : ∀ c ∈ d.toList, c.isDigit = true) : Token.lex d.toList = [.int d] := by
  have done : Token.lex [] = [] := Token.lex_blank rfl
  have chars : d.toList ≠ [] := fun empty => written (String.toList_eq_nil_iff.mp empty)
  have lexed := @Token.lex_digits d.toList [] chars digits nofun
  rwa [List.append_nil, String.ofList_toList, done] at lexed

theorem ofText_digits {d : String} (written : d ≠ "")
    (digits : ∀ c ∈ d.toList, c.isDigit = true) : Parse.ofText d = Parse.ofTokens [.int d] := by
  rw [Parse.ofText, lex_of_digits written digits]

theorem digits_ofNat (n : Nat) :
    Decimal.ofNat n ≠ "" ∧ ∀ c ∈ (Decimal.ofNat n).toList, c.isDigit = true := by
  have run : (Decimal.ofNat n).toList = Decimal.digits n := by
    rw [Decimal.ofNat, String.toList_ofList]
  rw [Ne, ← String.toList_eq_nil_iff, run]
  exact ⟨Decimal.digits_ne_nil n, List.all_eq_true.mp (Decimal.all_isDigit_digits n)⟩

/-- Behind a minus sign the digits are a literal of their own. -/
theorem ofText_minus (n : Nat) :
    Parse.ofText (String.ofList ('-' :: Decimal.digits n)) =
      Parse.ofTokens [.minus, .int (Decimal.ofNat n)] := by
  obtain ⟨written, digits⟩ := digits_ofNat n
  have lexed := lex_of_digits written digits
  rw [Decimal.ofNat, String.toList_ofList] at lexed
  rw [Parse.ofText, String.toList_ofList, Token.lex_symbol rfl, lexed]
  rfl

/-! ## Texts of integers -/

theorem toInt_ofInt_of_small {n : Nat} (small : (n : Int) ≤ Int64.maxValue.toInt) :
    (Int64.ofInt n).toInt = n := by
  have above : Int64.minValue.toInt ≤ n := Int.le_trans (by decide) (Int.natCast_nonneg n)
  exact Int64.toInt_ofInt_of_le above (Int.lt_of_le_of_lt small (by decide))

/-- Of the negative integers only the smallest has a magnitude out of range. -/
theorem magnitude_le {v : Int64} {n : Nat} (other : v ≠ .minValue)
    (negative : v.toInt = Int.negSucc n) : ((n + 1 : Nat) : Int) ≤ Int64.maxValue.toInt := by
  have above := Int64.minValue_le_toInt v
  have differs : v.toInt ≠ Int64.minValue.toInt := fun same => other (Int64.toInt_inj.mp same)
  have smallest : Int64.minValue.toInt = -9223372036854775808 := by decide
  have largest : Int64.maxValue.toInt = 9223372036854775807 := by decide
  omega

/-- What an integer prints as is a text without fault that comes to the integer, and nothing else
happens. -/
theorem program_text {v : Int64} (other : v ≠ .minValue) (depth : Nat) (scope : ScopeId)
    (scopes : Scopes) :
    (Parse.ofText (Value.int v).text).diagnostics = [] ∧
      Eval.program depth scope (Parse.ofText (Value.int v).text).program scopes =
        ⟨.ok (some (.int v)), scopes, []⟩ := by
  have text : (Value.int v).text = String.ofList (Decimal.signed v.toInt) := rfl
  cases sign : v.toInt with
  | ofNat n =>
    have small : (n : Int) ≤ Int64.maxValue.toInt := by
      have below := Int64.toInt_le v
      rwa [sign] at below
    have same : Int64.ofInt n = v := by
      rw [← Int64.toInt_inj, toInt_ofInt_of_small small, sign]
      rfl
    obtain ⟨written, digits⟩ := digits_ofNat n
    have parsed := ofText_digits written digits
    rw [Parse.ofTokens_int (Decimal.int64?_ofNat small), same] at parsed
    rw [text, sign]
    show (Parse.ofText (Decimal.ofNat n)).diagnostics = [] ∧
      Eval.program depth scope (Parse.ofText (Decimal.ofNat n)).program scopes = _
    rw [parsed]
    exact ⟨rfl, rfl⟩
  | negSucc n =>
    have small := magnitude_le other sign
    have same : -Int64.ofInt (n + 1 : Nat) = v := by
      rw [← Int64.ofInt_neg, ← Int64.ofInt_toInt v, sign]
      rfl
    rw [text, sign, Decimal.signed, ofText_minus,
      Parse.ofTokens_negative (Decimal.int64?_ofNat small)]
    refine ⟨rfl, ?_⟩
    rw [← same]
    rfl

/-- A text of digits is a literal exactly if what they stand for is at most `2 ^ 63 - 1`, however
many zeros lead them.  Every integer but the smallest reads back from what it prints as; the digits
of that one are reported. -/
theorem integer_text_reads_back :
    (∀ d : String, d ≠ "" → (∀ c ∈ d.toList, c.isDigit = true) →
      if Decimal.value d.toList ≤ 2 ^ 63 - 1 then
        (Parse.ofText d).diagnostics = [] ∧
          ∃ v : Int64, v.toInt = Decimal.value d.toList ∧
            (Parse.ofText d).program = ⟨[.expr (.int d) (.int v)]⟩
      else (Parse.ofText d).diagnostics = [.badInteger d] ∧ (Parse.ofText d).program = ⟨[]⟩) ∧
    (∀ v : Int64, v ≠ .minValue → ∀ depth scope scopes,
      (Parse.ofText (Value.int v).text).diagnostics = [] ∧
        Eval.program depth scope (Parse.ofText (Value.int v).text).program scopes =
          ⟨.ok (some (.int v)), scopes, []⟩) ∧
    (Parse.ofText (Value.int .minValue).text).diagnostics =
        [.badInteger "9223372036854775808"] ∧
      (Parse.ofText (Value.int .minValue).text).program = ⟨[]⟩ := by
  have smallest : Parse.ofText (Value.int .minValue).text =
      ⟨⟨[]⟩, [.diagnostic (.badInteger "9223372036854775808"), .dropped]⟩ := by cbv
  refine ⟨fun d written digits => ?_, fun v other => program_text other, ?_⟩
  · have read := Decimal.int64?_of_digits written (List.all_eq_true.mpr digits)
    have largest : Int64.maxValue.toInt = 9223372036854775807 := by decide
    rw [ofText_digits written digits]
    split
    · next small =>
      have small : (Decimal.value d.toList : Int) ≤ Int64.maxValue.toInt := by omega
      rw [if_pos small] at read
      rw [Parse.ofTokens_int read]
      exact ⟨rfl, _, toInt_ofInt_of_small small, rfl⟩
    · next large =>
      rw [if_neg (by omega)] at read
      rw [Parse.ofTokens_badInt read]
      exact ⟨rfl, rfl⟩
  · rw [smallest]
    exact ⟨rfl, rfl⟩

/-- Leading zeros count for nothing, the largest literal is followed by one that is none, and
`-5` comes to itself. -/
theorem integer_text_reads_back_at_boundary :
    (∃ v : Int64, v.toInt = 7 ∧ (Parse.ofText "007").program = ⟨[.expr (.int "007") (.int v)]⟩) ∧
    (Parse.ofText "9223372036854775807").diagnostics = [] ∧
    (Parse.ofText "9223372036854775808").program = ⟨[]⟩ ∧
    Eval.program 0 0 (Parse.ofText "-5").program Session.fresh.scopes =
      ⟨.ok (some (.int (-5))), Session.fresh.scopes, []⟩ := by
  obtain ⟨literals, values, -⟩ := integer_text_reads_back
  have seven := literals "007" (by decide) (List.all_eq_true.mp (by decide))
  have largest := literals "9223372036854775807" (by decide) (List.all_eq_true.mp (by decide))
  have above := literals "9223372036854775808" (by decide) (List.all_eq_true.mp (by decide))
  have value : Decimal.value "007".toList = 7 := by decide
  have negative : (Value.int (-5)).text = "-5" := by cbv
  have five := (values (-5) (by decide) 0 0 Session.fresh.scopes).2
  rw [if_pos (by decide)] at seven largest
  rw [if_neg (by decide)] at above
  rw [value] at seven
  rw [negative] at five
  exact ⟨seven.2, largest.1, above.2, five⟩

end TreeWalk
