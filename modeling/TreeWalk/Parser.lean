import TreeWalk.Parser.Grammar
import TreeWalk.Token.Lex

/-!
# Parsing

Parsing never fails as a whole: it yields the statements that could be read, and notes on those
that could not.
-/

namespace TreeWalk

/-- What a text or a list of tokens reads as. -/
structure Parse where
  program : Program
  notes : List Note

namespace Parse

/-- Reads tokens as a program, the trace being at level 0.  The list is read as if the end of the
text followed it without end; an end of text inside it ends the program where a statement would
begin. -/
def outcome (tokens : List Token) (tracing : Bool := false) : Outcome (List Stmt) :=
  Grammar.program tokens.length tracing 0 tokens

/-- Parses tokens. -/
def ofTokens (tokens : List Token) (tracing : Bool := false) : Parse :=
  let read := outcome tokens tracing
  ⟨⟨read.value.getD []⟩, read.notes⟩

/-- Parses a text. -/
def ofText (text : String) (tracing : Bool := false) : Parse :=
  ofTokens (Token.lex text.toList) tracing

/-- The diagnostics, in the order in which they arose. -/
def diagnostics (parse : Parse) : List Diagnostic :=
  parse.notes.filterMap Note.diagnostic?

/-- How many statements were given up, at every depth. -/
def dropped (parse : Parse) : Nat :=
  parse.notes.count .dropped

/-- The trace, in the order of its events. -/
def trace (parse : Parse) : List TraceRecord :=
  parse.notes.filterMap Note.trace?

end Parse

end TreeWalk
