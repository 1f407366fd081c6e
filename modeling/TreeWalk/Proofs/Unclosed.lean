import Mathlib
import TreeWalk.Proofs.Joining

/-!
# Unclosed blocks

The end of a text closes the blocks that are open there.  So a text of which only that is missing is
read without a complaint, as if the braces stood behind it; any other bracket that is open or closed
out of turn is reported.

Results:
1. what is read without a complaint leaves open nothing but blocks, and what it reads as is what it
   reads as with their braces behind it (`silent_iff_closed_silent`).
-/

namespace TreeWalk

section

variable {tokens : List Token} {k : Nat}

/-- Without a complaint, the braces that are missing at the end are those that the brackets say. -/
theorem derives_closed (inside : .eof ∉ tokens)
    (left : brackets [] tokens = some (List.replicate k .rbrace))
    (silent : (Parse.ofTokens tokens).diagnostics = []) :
    Derives .stmts (tokens ++ List.replicate k .rbrace) := by
  obtain ⟨k', derived⟩ := derives_of_silent inside silent
  have left' := brackets_append_braces_iff.mp (derived.nested [])
  rw [left] at left'
  have same : k = k' := by simpa using congrArg List.length (Option.some.inj left')
  exact same ▸ derived

theorem derives_of_closed_silent (inside : .eof ∉ tokens)
    (left : brackets [] tokens = some (List.replicate k .rbrace))
    (silent : (Parse.ofTokens (tokens ++ List.replicate k .rbrace)).diagnostics = []) :
    Derives .stmts (tokens ++ List.replicate k .rbrace) := by
  have matched := matched_of_nested (brackets_append_braces_iff.mpr left)
  refine derives_of_balanced matched.balanced (fun member => ?_) silent
  rcases List.mem_append.mp member with member | brace
  · exact inside member
  · cases List.eq_of_mem_replicate brace

theorem matched_iff (left : brackets [] tokens = some (List.replicate k .rbrace)) :
    Matched tokens ↔ k = 0 := by
  constructor
  · intro matched
    have counted := count_brackets left
    rw [matched.balanced] at counted
    simpa [List.count_replicate] using counted
  · rintro rfl
    exact matched_of_nested left

end

/-- Without a complaint nothing but blocks is open at the end of a text, and the braces are matched
unless some block is.  If nothing but blocks is open there, a text is read without a complaint
exactly if it is with their braces behind it, and then as the same program. -/
theorem silent_iff_closed_silent (text : String) :
    ((Parse.ofText text).diagnostics = [] →
      ∃ k, brackets [] (Token.lex text.toList) = some (List.replicate k .rbrace) ∧
        (Matched (Token.lex text.toList) ↔ k = 0)) ∧
    ∀ k, brackets [] (Token.lex text.toList) = some (List.replicate k .rbrace) →
      ((Parse.ofText text).diagnostics = [] ↔
        (Parse.ofTokens (Token.lex text.toList ++ List.replicate k .rbrace)).diagnostics = []) ∧
      ((Parse.ofText text).diagnostics = [] →
        (Parse.ofTokens (Token.lex text.toList ++ List.replicate k .rbrace)).program =
          (Parse.ofText text).program) := by
  rw [Parse.ofText]
  have inside := Token.eof_not_mem_lex text.toList
  generalize Token.lex text.toList = tokens at inside
  refine ⟨fun silent => ?_, fun k left => ?_⟩
  · obtain ⟨k, derived⟩ := derives_of_silent inside silent
    have left := brackets_append_braces_iff.mp (derived.nested [])
    exact ⟨k, left, matched_iff left⟩
  · have reads (derived : Derives .stmts (tokens ++ List.replicate k .rbrace)) :
        (Parse.ofTokens tokens).diagnostics = [] ∧
          Parse.ofTokens (tokens ++ List.replicate k .rbrace) = Parse.ofTokens tokens := by
      obtain ⟨ss, parsed, parsed'⟩ := parse_of_derives derived
      rw [parsed, parsed']
      exact ⟨rfl, rfl⟩
    refine ⟨⟨fun silent => ?_, fun silent => ?_⟩, fun silent => ?_⟩
    · rw [(reads (derives_closed inside left silent)).2]
      exact silent
    · exact (reads (derives_of_closed_silent inside left silent)).1
    · rw [(reads (derives_closed inside left silent)).2]

/-- Behind `if (x) { fn() { 1` two braces are missing, and it is read as if they stood there. -/
theorem silent_iff_closed_silent_of_two_blocks :
    (Parse.ofText "if (x) \x7b fn() \x7b 1").diagnostics = [] ∧
    brackets [] (Token.lex "if (x) \x7b fn() \x7b 1".toList) = some [.rbrace, .rbrace] ∧
    (Parse.ofTokens (Token.lex "if (x) \x7b fn() \x7b 1".toList ++
      [.rbrace, .rbrace])).diagnostics = [] ∧
    (∃ k, brackets [] (Token.lex "if (x) \x7b fn() \x7b 1".toList) =
      some (List.replicate k .rbrace)) := by
  have silent : (Parse.ofText "if (x) \x7b fn() \x7b 1").diagnostics = [] := by cbv
  have left : brackets [] (Token.lex "if (x) \x7b fn() \x7b 1".toList) =
      some (List.replicate 2 .rbrace) := by cbv
  obtain ⟨closes, reads⟩ := silent_iff_closed_silent "if (x) \x7b fn() \x7b 1"
  obtain ⟨k, left', -⟩ := closes silent
  exact ⟨silent, left, (reads 2 left).1.mp silent, k, left'⟩

/-- Nothing is reported of `fn() { 1` although its braces are not matched. -/
theorem cut_off_block_is_silent :
    ¬ ∀ text : String, (Parse.ofText text).diagnostics = [] → Matched (Token.lex text.toList) := by
  intro always
  have lexed : Token.lex "fn() \x7b 1".toList =
      [.fnWord, .lparen, .rparen, .lbrace, .int "1"] := by cbv
  have silent : (Parse.ofText "fn() \x7b 1").diagnostics = [] := by cbv
  have matched := always _ silent
  rw [lexed] at matched
  exact absurd matched (by decide)

end TreeWalk
