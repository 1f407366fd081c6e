import Mathlib.Data.List.TakeWhile
import TreeWalk.Proofs.Acceptance
import TreeWalk.Proofs.Brackets
import TreeWalk.Proofs.Relexing

/-!
# Joined texts

Texts that are whole can be joined: the lexer starts anew behind a line break unless that stands in
a string, and the parser starts anew behind a semicolon unless that stands in a block.

Results:
1. texts whose last tokens are semicolons are read one by one when there are line breaks between
   them (`Token.lex_intercalate`);
2. statements whose last token is a semicolon are read the same whatever follows them
   (`exists_readsOn`), and such statements can be put together (`ReadsOn.append`);
3. hence joined texts read as what they read as one by one (`ofText_intercalate`).
-/

namespace TreeWalk

/-- The last of the tokens, if there is one, is a semicolon. -/
def EndInSemicolon (tokens : List Token) : Prop :=
  ∀ last ∈ tokens.getLast?, last = .semicolon

theorem EndInSemicolon.of_append (before : List Token) {tokens : List Token}
    (ends : EndInSemicolon (before ++ tokens)) : EndInSemicolon tokens := by
  intro last isLast
  refine ends last ?_
  rw [List.getLast?_append, Option.mem_def.mp isLast]
  rfl

/-! ## Lexing -/

/-- A run of characters ends where it ended before, if it did so inside the text, or if what follows
the text stops it. -/
theorem span_append {p : Char → Bool} {text more : List Char}
    (ends : (∃ c ∈ text, p c = false) ∨ ∀ c ∈ more.head?, p c = false) :
    (text ++ more).takeWhile p = text.takeWhile p ∧
      (text ++ more).dropWhile p = text.dropWhile p ++ more := by
  induction text with
  | nil =>
    have stops := ends.resolve_left nofun
    exact span_run nofun stops
  | cons c text ih =>
    cases goesOn : p c with
    | false => simp [goesOn]
    | true =>
      have ends : (∃ c ∈ text, p c = false) ∨ ∀ c ∈ more.head?, p c = false := by
        refine ends.imp_left ?_
        rintro ⟨d, member, stops⟩
        rcases List.mem_cons.mp member with rfl | inside
        · rw [goesOn] at stops
          cases stops
        · exact ⟨d, inside, stops⟩
      obtain ⟨taken, left⟩ := ih ends
      simp [goesOn, taken, left]

namespace Token

theorem scanEquals_line (alone joined : Token) (rest more : List Char) :
    scanEquals alone joined (rest ++ '\n' :: more) =
      ((scanEquals alone joined rest).1, (scanEquals alone joined rest).2 ++ '\n' :: more) := by
  cases rest with
  | nil => rfl
  | cons c rest =>
    by_cases equals : c = '='
    · subst equals
      rfl
    · unfold scanEquals
      split
      · next first => exact absurd (List.cons.inj first).1 equals
      · split
        · next first => exact absurd (List.cons.inj first).1 equals
        · rfl

/-- A line break ends every token but a string. -/
theorem scan_line {c : Char} {rest : List Char} (closed : c = '"' → '"' ∈ rest)
    (more : List Char) :
    scan c (rest ++ '\n' :: more) = ((scan c rest).1, (scan c rest).2 ++ '\n' :: more) := by
  have stops {p : Char → Bool} (newline : p '\n' = false) :
      ∀ c ∈ ('\n' :: more).head?, p c = false := by
    rintro c first
    cases first
    exact newline
  unfold scan
  split
  · exact scanEquals_line _ _ rest more
  · split
    · exact scanEquals_line _ _ rest more
    · split
      · next quote =>
        obtain ⟨taken, left⟩ := @span_append (· != '"') rest ('\n' :: more)
          (.inl ⟨'"', closed quote, rfl⟩)
        -- The closing quote is left, so it is what is dropped from the text.
        have some : rest.dropWhile (· != '"') ≠ [] := by
          rw [Ne, List.dropWhile_eq_nil_iff]
          exact fun all => absurd (all '"' (closed quote)) (by decide)
        rw [taken, left, List.drop_append_of_le_length (List.length_pos_iff.mpr some)]
      · split
        · obtain ⟨taken, left⟩ := @span_append isLetter rest _ (.inr (stops (by decide)))
          rw [taken, left]
        · split
          · obtain ⟨taken, left⟩ := @span_append Char.isDigit rest _ (.inr (stops (by decide)))
            rw [taken, left]
          · rfl

theorem lex_line {text : List Char} (ends : EndInSemicolon (lex text)) (more : List Char) :
    lex (text ++ '\n' :: more) = lex text ++ lex more := by
  fun_induction lex text with
  | case1 text blank =>
    have all : ∀ c ∈ text ++ ['\n'], isBlank c = true := by
      intro c member
      rcases List.mem_append.mp member with inside | newline
      · exact List.dropWhile_eq_nil_iff.mp blank c inside
      · exact List.mem_singleton.mp newline ▸ rfl
    rw [List.append_cons, lex_blanks all, List.nil_append]
  | case2 text c rest found ih =>
    -- A string that is not closed would be the last token.
    have closed : c = '"' → '"' ∈ rest := by
      rintro rfl
      by_contra unclosed
      rw [scan_unclosed unclosed, lex_blank rfl] at ends
      cases ends _ rfl
    have solid : ∃ d ∈ text, isBlank d = false := by
      by_contra none
      have blank : text.dropWhile isBlank = [] :=
        List.dropWhile_eq_nil_iff.mpr fun d member => by
          by_contra solid
          exact none ⟨d, member, Bool.eq_false_iff.mpr solid⟩
      rw [found] at blank
      cases blank
    have behind := (@span_append isBlank text ('\n' :: more) (.inl solid)).2
    rw [found, List.cons_append] at behind
    rw [lex_scan behind, scan_line closed, ih (EndInSemicolon.of_append [_] ends)]
    rfl

theorem lex_intercalate {texts : List String}
    (ends : ∀ text ∈ texts, EndInSemicolon (lex text.toList)) :
    lex ("\n".intercalate texts).toList = texts.flatMap fun text => lex text.toList := by
  induction texts with
  | nil => exact lex_blank rfl
  | cons text texts ih =>
    obtain ⟨here, later⟩ := List.forall_mem_cons.mp ends
    cases texts with
    | nil => simp
    | cons next texts =>
      have joined : ("\n".intercalate (text :: next :: texts)).toList =
          text.toList ++ '\n' :: ("\n".intercalate (next :: texts)).toList := by
        rw [String.intercalate_cons_cons]
        simp
      rw [joined, lex_line here, ih later]
      rfl

end Token

/-! ## Semicolons -/

/-- There are tokens, and the last of them is no semicolon. -/
def Unended (tokens : List Token) : Prop :=
  ∃ front last, tokens = front ++ [last] ∧ last ≠ .semicolon

theorem Unended.append {tokens : List Token} (unended : Unended tokens) (before : List Token) :
    Unended (before ++ tokens) := by
  obtain ⟨front, last, rfl, notEnd⟩ := unended
  exact ⟨before ++ front, last, (List.append_assoc ..).symm, notEnd⟩

theorem Unended.cons {tokens : List Token} (unended : Unended tokens) (first : Token) :
    Unended (first :: tokens) :=
  unended.append [first]

theorem unended_rparen : Unended [.rparen] :=
  ⟨[], .rparen, rfl, nofun⟩

theorem Unended.not_endInSemicolon {tokens : List Token} (unended : Unended tokens) :
    ¬ EndInSemicolon tokens := by
  obtain ⟨front, last, rfl, notEnd⟩ := unended
  exact fun ends => notEnd (ends last List.getLast?_concat)

namespace Spells

theorem unended_block {b : Block} {inner : List Token} (spelled : Spells (.block b) inner) :
    Unended inner := by
  cases spelled with
  | block _ => exact ⟨.lbrace :: _, .rbrace, rfl, nofun⟩

theorem unended_expr {strength : Nat} {e : Expr} {tokens : List Token} :
    Spells (.expr strength e) tokens → Unended tokens
  | .ident _ | .int _ | .str _ | .trueWord | .falseWord => ⟨[], _, rfl, nofun⟩
  | .group _ => (unended_rparen.append _).cons _
  | .prefixOp _ _ operand => operand.unended_expr.cons _
  | .infixOp _ _ _ _ right => (right.unended_expr.cons _).append _
  | .ifThen _ yes => (((yes.unended_block.cons _).append _).cons _).cons _
  | .ifElse _ _ no => (((((no.unended_block.cons _).append _).cons _).append _).cons _).cons _
  | .fn _ body => (((body.unended_block.cons _).append _).cons _).cons _
  | .callNone _ => (unended_rparen.cons _).append _
  | .call _ _ _ => (((unended_rparen.append _).append _).cons _).append _

theorem unended_stmt {s : Stmt} {tokens : List Token} (spelled : Spells (.stmt s) tokens) :
    Unended tokens := by
  cases spelled with
  | bind name value => exact value.unended_expr.append [.letWord, .ident name, .assign]
  | ret value => exact value.unended_expr.cons .returnWord
  | expr _ value => exact value.unended_expr

end Spells

/-! ## Reading on -/

open Grammar

/-- `ReadsOn tokens ss`: the tokens are read as the statements, and behind them reading goes on as
if nothing had been there. -/
structure ReadsOn (tokens : List Token) (ss : List Stmt) : Prop where
  length_le : ss.length ≤ tokens.length
  reads : ∀ {bound steps : Nat} {rest after : List Token} {more : List Stmt},
    (tokens ++ rest).length ≤ bound →
    statements (expression bound) [] steps false 0 rest = ⟨some more, after, [], 0⟩ →
    statements (expression bound) [] (steps + ss.length) false 0 (tokens ++ rest) =
      ⟨some (ss ++ more), after, [], 0⟩

namespace ReadsOn

variable {u v : List Token} {ss ss' : List Stmt}

theorem nil : ReadsOn [] [] :=
  ⟨Nat.le_refl _, fun _ run => run⟩

theorem append (front : ReadsOn u ss) (back : ReadsOn v ss') : ReadsOn (u ++ v) (ss ++ ss') := by
  refine ⟨?_, fun {bound steps rest after more} short run => ?_⟩
  · rw [List.length_append, List.length_append]
    exact Nat.add_le_add front.length_le back.length_le
  · rw [List.append_assoc] at short
    have shorter : (v ++ rest).length ≤ bound :=
      Nat.le_trans (List.suffix_append u _).length_le short
    have whole := front.reads short (back.reads shorter run)
    rwa [Nat.add_assoc, Nat.add_comm ss'.length, ← List.length_append, ← List.append_assoc,
      ← List.append_assoc] at whole

theorem parse (reads : ReadsOn u ss) : Parse.ofTokens u = ⟨⟨ss⟩, []⟩ := by
  have atEnd : statements (expression u.length) [] (u.length - ss.length) false 0 [] =
      ⟨some [], [], [], 0⟩ := by
    cases u.length - ss.length <;> rfl
  have run := reads.reads (Nat.le_of_eq (by rw [List.append_nil])) atEnd
  rw [Nat.sub_add_cancel reads.length_le, List.append_nil, List.append_nil] at run
  rw [ofTokens_eq, Grammar.program, run]
  rfl

end ReadsOn

/-- A statement is read if it is left alone by what follows it. -/
theorem exists_readsOn_cons {s : Stmt} {first between rest : List Token} {ss : List Stmt}
    (spelled : Spells (.stmt s) first) (reads : ReadsOn rest ss)
    (parts : ∀ more, Spares 0 (between ++ (rest ++ more)) ∧
      (if ((between ++ (rest ++ more)).headD .eof).kind = .semicolon then
        (between ++ (rest ++ more)).tail else between ++ (rest ++ more)) = rest ++ more) :
    ∃ s', ReadsOn (first ++ (between ++ rest)) (s' :: ss) := by
  obtain ⟨s', _, done⟩ := readsAs_of_spells spelled
  obtain ⟨head, used, rfl, isHead⟩ := spelled.exists_head_of_stmt
  refine ⟨s', ?_, fun {bound steps tail after more} short run => ?_⟩
  · simp only [List.length_cons, List.length_append]
    have := reads.length_le
    omega
  · obtain ⟨spares, behind⟩ := parts tail
    rw [List.append_assoc, List.append_assoc] at short ⊢
    obtain ⟨left, follows, read⟩ := done (Supplies.of_append _ _) short spares
    refine statements_step (begins_of_stmtHead isHead nofun) read ?_
    rw [follows, behind]
    refine reads.reads (Nat.le_trans ?_ short) run
    exact ((List.suffix_append between _).trans (List.suffix_append (head :: used) _)).length_le

theorem exists_readsOn {tokens : List Token} : ∀ {ss : List Stmt},
    Spells (.stmts ss) tokens → EndInSemicolon tokens → ∃ ss', ss'.length = ss.length ∧
      ReadsOn tokens ss'
  | _, .noStmts, _ => ⟨[], rfl, .nil⟩
  | _, .ended first rest, ends => by
    obtain ⟨ss', same, reads⟩ := exists_readsOn rest (.of_append [_] (.of_append _ ends))
    obtain ⟨s', whole⟩ := @exists_readsOn_cons _ _ [.semicolon] _ _ first reads
      fun _ => ⟨.cons (by decide) (by decide) _, rfl⟩
    exact ⟨s' :: ss', congrArg Nat.succ same, whole⟩
  | _, .juxtaposed first rest notCall notMinus, ends => by
    obtain ⟨ss', same, reads⟩ := exists_readsOn rest (.of_append _ ends)
    obtain rfl | ⟨head, behind, rfl, isHead⟩ := rest.exists_head_of_stmts
    · rw [List.append_nil] at ends
      exact absurd ends first.unended_stmt.not_endInSemicolon
    · obtain ⟨s', whole⟩ := @exists_readsOn_cons _ _ [] _ _ first reads fun more => by
        obtain ⟨spares, notEnd⟩ := spares_of_stmtHead isHead
          (fun same => notCall (congrArg some same)) (fun same => notMinus (congrArg some same))
          (behind ++ more)
        exact ⟨spares, if_neg notEnd⟩
      exact ⟨s' :: ss', congrArg Nat.succ same, whole⟩

/-! ## Whole pieces -/

/-- Braces that are missing at the end would be closed but not opened. -/
theorem derives_of_balanced {tokens : List Token} (balanced : Balanced tokens)
    (inside : .eof ∉ tokens) (silent : (Parse.ofTokens tokens).diagnostics = []) :
    Derives .stmts tokens := by
  obtain ⟨k, derived⟩ := derives_of_silent inside silent
  have whole := derived.balanced
  rw [Balanced, List.count_append, List.count_append, balanced] at whole
  have none : k = 0 := by simpa [List.count_replicate] using whole.symm
  rwa [none, List.replicate_zero, List.append_nil] at derived

/-- The text has no diagnostics, its last token is a semicolon, and its braces are balanced. -/
structure IsPiece (text : String) : Prop where
  silent : (Parse.ofText text).diagnostics = []
  ended : (Token.lex text.toList).getLast? = some .semicolon
  balanced : (Token.lex text.toList).count .lbrace = (Token.lex text.toList).count .rbrace

namespace IsPiece

variable {text : String}

theorem endInSemicolon (piece : IsPiece text) : EndInSemicolon (Token.lex text.toList) := by
  intro last isLast
  rw [piece.ended] at isLast
  exact (Option.mem_some.mp isLast).symm

theorem derives (piece : IsPiece text) : Derives .stmts (Token.lex text.toList) :=
  derives_of_balanced piece.balanced (Token.eof_not_mem_lex _) piece.silent

/-- What a piece reads as is there in any text that it is joined to. -/
theorem readsOn (piece : IsPiece text) :
    ReadsOn (Token.lex text.toList) (Parse.ofText text).program.statements ∧
      (Parse.ofText text).program.statements ≠ [] := by
  obtain ⟨ss, spelled⟩ := piece.derives.spelled
  obtain ⟨ss', same, reads⟩ := exists_readsOn spelled piece.endInSemicolon
  rw [Parse.ofText, reads.parse]
  refine ⟨reads, ?_⟩
  rintro rfl
  -- Without statements there are no tokens, so none of them is a semicolon.
  obtain rfl := List.length_eq_zero_iff.mp same.symm
  have ended := piece.ended
  generalize Token.lex text.toList = tokens at spelled ended
  cases spelled
  cases ended

end IsPiece

theorem readsOn_pieces {texts : List String} (pieces : ∀ text ∈ texts, IsPiece text) :
    ReadsOn (texts.flatMap fun text => Token.lex text.toList)
      (texts.flatMap fun text => (Parse.ofText text).program.statements) := by
  induction texts with
  | nil => exact .nil
  | cons text texts ih =>
    obtain ⟨here, later⟩ := List.forall_mem_cons.mp pieces
    exact here.readsOn.1.append (ih later)

theorem ofText_intercalate {texts : List String} (pieces : ∀ text ∈ texts, IsPiece text) :
    Parse.ofText ("\n".intercalate texts) =
      ⟨⟨texts.flatMap fun text => (Parse.ofText text).program.statements⟩, []⟩ := by
  have lexed := Token.lex_intercalate fun text member => (pieces text member).endInSemicolon
  rw [Parse.ofText, lexed]
  exact (readsOn_pieces pieces).parse

end TreeWalk
