import TreeWalk.Proofs.Reading
import TreeWalk.Proofs.Salvage

/-!
# Round trips

What is read from a text can be written and read again.

Results:
1. a program that can be written comes out of its text, apart from the tokens that its expression
   statements keep (`ofText_text_of_plain`);
2. what is read from any text, however wrong, is such a program, and after one round trip nothing
   changes any more (`ofText_again`).
-/

namespace TreeWalk

theorem Program.text_eq_join (program : Program) :
    program.text = String.join ((Stmt.texts program.statements).map (· ++ "")) := by
  have same : (fun text : String => text ++ "") = id := by
    funext text
    exact String.append_empty
  rw [Program.text, Stmt.texts_eq_map, same, List.map_id]

theorem lex_text_of_written {program : Program} {tokens : List Token}
    (written : Written (.stmts program.statements) tokens) :
    Token.lex program.text.toList = tokens := by
  have read := written.lexes "" [] fun _ => rfl
  have done : Token.lex [] = [] := Token.lex_blank rfl
  rw [List.append_nil, ← Program.text_eq_join, done, List.append_nil] at read
  exact read

theorem ofText_text_of_plain {program : Program} (plain : (Phrase.stmts program.statements).Plain) :
    (Parse.ofText program.text).Recovers program := by
  obtain ⟨tokens, written⟩ := plain
  rw [Parse.ofText, lex_text_of_written written]
  exact recovers_of_spells written.spells

/-- Whatever notes there are on a text, what is read from it can be written. -/
theorem plain_of_ofText (text : String) :
    (Phrase.stmts (Parse.ofText text).program.statements).Plain := by
  have wellFormed : WellFormed (Token.lex text.toList) := fun _ => Token.wellFormed_of_mem_lex
  rw [Parse.ofText, ofTokens_eq]
  generalize Token.lex text.toList = tokens at wellFormed ⊢
  have yields := program_yields tokens.length wellFormed
  cases found : (Grammar.program tokens.length false 0 tokens).value with
  | none => exact ⟨[], .noStmts⟩
  | some ss => exact yields.result false 0 ss found

/-- What the text of the program reads as. -/
def Parse.again (parse : Parse) : Parse :=
  .ofText parse.program.text

/-- The text of what was read, however damaged the text it was read from, reads without a diagnostic
as the same program, and is written as itself. -/
theorem ofText_again (text : String) :
    (Parse.ofText text).again.diagnostics = [] ∧
    (Parse.ofText text).again.program.bare = (Parse.ofText text).program.bare ∧
    (Parse.ofText text).again.program.text = (Parse.ofText text).program.text ∧
    (Parse.ofText text).again.again.program = (Parse.ofText text).again.program := by
  have recovers := ofText_text_of_plain (plain_of_ofText text)
  have sameText := Program.text_of_bare recovers.same
  refine ⟨recovers.silent, recovers.same, sameText, ?_⟩
  show (Parse.ofText (Parse.ofText _).program.text).program = _
  rw [sameText]
  rfl

end TreeWalk
