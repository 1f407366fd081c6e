import TreeWalk.Token

/-!
# From text to tokens

Blanks separate tokens and mean nothing else.  A name or a keyword is the longest run of letters,
an integer the longest run of digits, and a string reaches to the next quote, or to the end of the
text where there is none.  `=` and `!` take a following `=` with them.  A character that begins
nothing is a token of its own, so the lexer reads every text.

Results:
1. every token takes at least one character (`Token.length_lt_of_scan`);
2. the reading unfolds token by token (`Token.lex_blank`, `Token.lex_scan`);
3. the end of the text is never read out of the middle of it (`Token.eof_not_mem_lex`).
-/

namespace TreeWalk

/-! ## Characters -/

/-- Space, tab, line feed, form feed and carriage return: the blanks of ASCII, without the vertical
tab. -/
def isBlank (c : Char) : Bool :=
  c == ' ' || c == '\t' || c == '\n' || c == '\x0c' || c == '\r'

/-- The letters of names: those of ASCII, and the underscore. -/
def isLetter (c : Char) : Bool :=
  c.isAlpha || c == '_'

namespace Token

/-- The token that the character is by itself, whatever follows it. -/
def symbol? : Char → Option Token
  | '+' => some plus
  | '-' => some minus
  | '*' => some asterisk
  | '/' => some slash
  | '<' => some lt
  | '>' => some gt
  | ';' => some semicolon
  | ',' => some comma
  | '(' => some lparen
  | ')' => some rparen
  | '{' => some lbrace
  | '}' => some rbrace
  | _ => none

/-! ## One token -/

/-- The token `alone`, or `joined` where the next character is `=`. -/
def scanEquals (alone joined : Token) : List Char → Token × List Char
  | '=' :: rest => (joined, rest)
  | rest => (alone, rest)

/-- The token whose first character is `c`, and the text left after it. -/
def scan (c : Char) (rest : List Char) : Token × List Char :=
  if c = '=' then scanEquals assign eq rest
  else if c = '!' then scanEquals bang notEq rest
  else if c = '"' then
    (str (String.ofList (rest.takeWhile (· != '"'))), (rest.dropWhile (· != '"')).drop 1)
  else if isLetter c then
    (ofWord (String.ofList (c :: rest.takeWhile isLetter)), rest.dropWhile isLetter)
  else if c.isDigit then
    (int (String.ofList (c :: rest.takeWhile Char.isDigit)), rest.dropWhile Char.isDigit)
  else ((symbol? c).getD (illegal c), rest)

theorem length_scanEquals_le (alone joined : Token) (rest : List Char) :
    (scanEquals alone joined rest).2.length ≤ rest.length := by
  unfold scanEquals
  split
  · simp
  · exact Nat.le_refl _

theorem length_dropWhile_le (p : Char → Bool) (rest : List Char) :
    (rest.dropWhile p).length ≤ rest.length :=
  (List.dropWhile_sublist p).length_le

theorem length_scan_le (c : Char) (rest : List Char) : (scan c rest).2.length ≤ rest.length := by
  unfold scan
  repeat' split
  · exact length_scanEquals_le _ _ _
  · exact length_scanEquals_le _ _ _
  · rw [List.length_drop]
    exact Nat.le_trans (Nat.sub_le _ _) (length_dropWhile_le _ _)
  · exact length_dropWhile_le _ _
  · exact length_dropWhile_le _ _
  · exact Nat.le_refl _

theorem length_lt_of_scan {text rest : List Char} {c : Char}
    (found : text.dropWhile isBlank = c :: rest) : (scan c rest).2.length < text.length := by
  have shorter := length_dropWhile_le isBlank text
  rw [found, List.length_cons] at shorter
  have := length_scan_le c rest
  omega

/-! ## A whole text -/

/-- The tokens of a text, in order, without the end of the text. -/
def lex (text : List Char) : List Token :=
  match _ : text.dropWhile isBlank with
  | [] => []
  | c :: rest => (scan c rest).1 :: lex (scan c rest).2
termination_by text.length
decreasing_by exact length_lt_of_scan ‹_›

theorem lex_blank {text : List Char} (blank : text.dropWhile isBlank = []) : lex text = [] := by
  rw [lex]
  split
  · rfl
  · simp_all

theorem lex_scan {text rest : List Char} {c : Char} (found : text.dropWhile isBlank = c :: rest) :
    lex text = (scan c rest).1 :: lex (scan c rest).2 := by
  rw [lex]
  split
  · simp_all
  · next h =>
    rw [found] at h
    cases h
    rfl

/-- The first `count` tokens of a text, if its end is read again and again. -/
def lexUpTo (count : Nat) (text : List Char) : List Token :=
  let tokens := lex text
  tokens.take count ++ List.replicate (count - tokens.length) eof

theorem ofWord_ne_eof (word : String) : ofWord word ≠ eof := by
  unfold ofWord
  cases found : keyword? word with
  | none => simp
  | some token =>
    have member := List.mem_of_find?_eq_some found
    rintro rfl
    simp at member

theorem scan_ne_eof (c : Char) (rest : List Char) : (scan c rest).1 ≠ eof := by
  unfold scan scanEquals
  repeat' split
  all_goals try simp [ofWord_ne_eof]
  unfold symbol?
  split <;> simp

theorem eof_not_mem_lex (text : List Char) : eof ∉ lex text := by
  fun_induction lex text with
  | case1 => simp
  | case2 text c rest _ ih =>
    simp only [List.mem_cons, not_or]
    exact ⟨(scan_ne_eof c rest).symm, ih⟩

end Token

end TreeWalk
