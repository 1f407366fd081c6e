import TreeWalk.Token

/-!
# What a parser notes

Beside a program, a parser leaves notes: diagnostics, the statements it gave up, and, if it is
asked to trace, a record of each grammar rule as it begins and ends.
-/

namespace TreeWalk

/-! ## Diagnostics -/

/-- What is wrong with a text. -/
inductive Diagnostic where
  /-- The grammar wants one kind of token, and another comes next. -/
  | unexpected (expected got : TokenKind)
  /-- No expression begins with a token of this kind. -/
  | noExpression (found : TokenKind)
  /-- The text of an integer is not one that 64 bits hold. -/
  | badInteger (literal : String)
deriving DecidableEq, Repr

def Diagnostic.message : Diagnostic → String
  | unexpected expected got =>
    "expected next token to be " ++ expected.label ++ ", got " ++ got.label ++ " instead"
  | noExpression found => "no prefix parse function for " ++ found.label ++ " found"
  | badInteger literal => "could not parse \"" ++ literal ++ "\" as integer"

/-! ## The trace -/

/-- The grammar rules that appear in a trace. -/
inductive RuleName where
  | expressionStatement
  | expression
  | integerLiteral
  | prefixExpression
  | infixExpression
deriving DecidableEq, Repr

def RuleName.label : RuleName → String
  | expressionStatement => "expression_statement"
  | expression => "expression"
  | integerLiteral => "integer_literal"
  | prefixExpression => "prefix_expression"
  | infixExpression => "infix_expression"

/-- A line of the trace: the beginning or the end of a rule, indented by `depth` tabs. -/
inductive TraceRecord where
  | enter (depth : Nat) (rule : RuleName)
  | leave (depth : Nat) (rule : RuleName)
deriving DecidableEq, Repr

/-- The text of a line, with its indentation. -/
def TraceRecord.message : TraceRecord → String
  | enter depth rule => String.ofList (List.replicate depth '\t') ++ "BEGIN " ++ rule.label
  | leave depth rule => String.ofList (List.replicate depth '\t') ++ "END " ++ rule.label

/-! ## Notes -/

/-- One thing a parser notes. -/
inductive Note where
  | diagnostic (diagnostic : Diagnostic)
  /-- A statement was given up. -/
  | dropped
  | trace (record : TraceRecord)
deriving DecidableEq, Repr

namespace Note

def diagnostic? : Note → Option Diagnostic
  | diagnostic d => some d
  | _ => none

def trace? : Note → Option TraceRecord
  | trace record => some record
  | _ => none

end Note

end TreeWalk
