/-!
# Tokens

The words of the language.  A token keeps the text it was read from only where tokens of its kind
differ in text: names, integers, strings, and characters that begin nothing else.

Results:
1. a word is a keyword or a name, and either way its literal is the word itself
   (`Token.literal_ofWord`).
-/

namespace TreeWalk

/-! ## Kinds -/

/-- What sort of word a token is, its text left aside. -/
inductive TokenKind where
  | illegal
  | eof
  | ident
  | int
  | str
  | assign
  | plus
  | minus
  | slash
  | asterisk
  | bang
  | lt
  | gt
  | eq
  | notEq
  | comma
  | semicolon
  | lparen
  | rparen
  | lbrace
  | rbrace
  | elseWord
  | falseWord
  | fnWord
  | ifWord
  | letWord
  | returnWord
  | trueWord
deriving DecidableEq, Repr

namespace TokenKind

/-- The kind as diagnostics write it. -/
def label : TokenKind → String
  | illegal => "ILLEGAL"
  | eof => "EOF"
  | ident => "IDENT"
  | int => "INT"
  | str => "STRING"
  | assign => "="
  | plus => "+"
  | minus => "-"
  | slash => "/"
  | asterisk => "*"
  | bang => "!"
  | lt => "<"
  | gt => ">"
  | eq => "=="
  | notEq => "!="
  | comma => ","
  | semicolon => ";"
  | lparen => "("
  | rparen => ")"
  | lbrace => "\x7b"
  | rbrace => "\x7d"
  | elseWord => "ELSE"
  | falseWord => "FALSE"
  | fnWord => "FUNCTION"
  | ifWord => "IF"
  | letWord => "LET"
  | returnWord => "RETURN"
  | trueWord => "TRUE"

/-- Every kind, once. -/
def all : List TokenKind :=
  [illegal, eof, ident, int, str, assign, plus, minus, slash, asterisk, bang, lt, gt, eq, notEq,
    comma, semicolon, lparen, rparen, lbrace, rbrace, elseWord, falseWord, fnWord, ifWord, letWord,
    returnWord, trueWord]

end TokenKind

/-! ## Tokens -/

/-- A word of the language. -/
inductive Token where
  /-- A character that begins no other token. -/
  | illegal (char : Char)
  /-- The end of the text. -/
  | eof
  | ident (text : String)
  /-- A run of digits, as written. -/
  | int (text : String)
  /-- What stands between the quotes. -/
  | str (text : String)
  | assign
  | plus
  | minus
  | slash
  | asterisk
  | bang
  | lt
  | gt
  | eq
  | notEq
  | comma
  | semicolon
  | lparen
  | rparen
  | lbrace
  | rbrace
  | elseWord
  | falseWord
  | fnWord
  | ifWord
  | letWord
  | returnWord
  | trueWord
deriving DecidableEq, Repr

namespace Token

def kind : Token → TokenKind
  | illegal _ => .illegal
  | eof => .eof
  | ident _ => .ident
  | int _ => .int
  | str _ => .str
  | assign => .assign
  | plus => .plus
  | minus => .minus
  | slash => .slash
  | asterisk => .asterisk
  | bang => .bang
  | lt => .lt
  | gt => .gt
  | eq => .eq
  | notEq => .notEq
  | comma => .comma
  | semicolon => .semicolon
  | lparen => .lparen
  | rparen => .rparen
  | lbrace => .lbrace
  | rbrace => .rbrace
  | elseWord => .elseWord
  | falseWord => .falseWord
  | fnWord => .fnWord
  | ifWord => .ifWord
  | letWord => .letWord
  | returnWord => .returnWord
  | trueWord => .trueWord

/-- The text a token was read from.  A string is given without its quotes, and the end of the text
has no text. -/
def literal : Token → String
  | illegal c => c.toString
  | eof => ""
  | ident text | int text | str text => text
  | assign => "="
  | plus => "+"
  | minus => "-"
  | slash => "/"
  | asterisk => "*"
  | bang => "!"
  | lt => "<"
  | gt => ">"
  | eq => "=="
  | notEq => "!="
  | comma => ","
  | semicolon => ";"
  | lparen => "("
  | rparen => ")"
  | lbrace => "\x7b"
  | rbrace => "\x7d"
  | elseWord => "else"
  | falseWord => "false"
  | fnWord => "fn"
  | ifWord => "if"
  | letWord => "let"
  | returnWord => "return"
  | trueWord => "true"

/-- The keyword spelled `word`, if there is one. -/
def keyword? (word : String) : Option Token :=
  [letWord, fnWord, ifWord, returnWord, trueWord, elseWord, falseWord].find? (·.literal == word)

/-- A word is the keyword it spells, and otherwise a name. -/
def ofWord (word : String) : Token :=
  (keyword? word).getD (ident word)

theorem literal_of_keyword? {word : String} {token : Token} (found : keyword? word = some token) :
    token.literal = word := by
  simpa using List.find?_some found

theorem literal_ofWord (word : String) : (ofWord word).literal = word := by
  unfold ofWord
  cases found : keyword? word with
  | none => rfl
  | some token => exact literal_of_keyword? found

end Token

end TreeWalk
