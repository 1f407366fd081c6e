import Mathlib.Data.List.TakeWhile
import TreeWalk.Proofs.Relexing

/-!
# Maximal munch

A text is the spellings of its tokens, with blanks before, between and behind them.  A token takes
in all that it can, so no character right behind it would have made it longer.

Results:
1. a scanned token is the beginning of the text that it was scanned from, unless it is a string that
   lacks its closing quote (`Token.munches_scan`);
2. a spelling is read back as its token if the token takes in nothing of what follows
   (`Token.lex_spelling`);
3. hence the tokens that a text renders are those that the lexer yields, and after them it yields
   the end of the text, however often it is called (`renders_iff_lex`).
-/

namespace TreeWalk

/-! ## Spellings -/

/-- The words that are no names. -/
def keywords : List String :=
  ["let", "fn", "if", "return", "true", "else", "false"]

/-- The characters that begin a token other than a name, a keyword or an integer. -/
def marks : List Char :=
  ['=', '!', '"', '+', '-', '*', '/', '<', '>', ';', ',', '(', ')', '{', '}']

namespace Token

/-- What a token is written as: its literal, in quotes if it is a string. -/
def spelling : Token → List Char
  | str text => '"' :: (text.toList ++ ['"'])
  | token => token.literal.toList

/-- The token is one that can be written: a name is a run of letters that is no keyword, an integer
a run of digits, a string has no quote in it, and a stray character is no blank and begins nothing
else.  The null character is a stray character like any other. -/
def Lexical : Token → Prop
  | illegal c => isBlank c = false ∧ isLetter c = false ∧ c.isDigit = false ∧ c ∉ marks
  | eof => False
  | ident text => text ≠ "" ∧ (∀ c ∈ text.toList, isLetter c = true) ∧ text ∉ keywords
  | int text => text ≠ "" ∧ ∀ c ∈ text.toList, c.isDigit = true
  | str text => '"' ∉ text.toList
  | _ => True

/-- The character would be part of the token if it stood right behind it. -/
def TakesIn : Token → Char → Prop
  | ident _, c | letWord, c | fnWord, c | ifWord, c | returnWord, c | trueWord, c | elseWord, c
  | falseWord, c => isLetter c = true
  | int _, c => c.isDigit = true
  | assign, c | bang, c => c = '='
  | _, _ => False

end Token

/-- `Renders tokens text`: the text is the spellings of the tokens in order, with blanks before,
between and behind them, and none of the tokens takes in the character right behind it.  Only the
last token can be a string without its closing quote; then nothing follows it. -/
inductive Renders : List Token → List Char → Prop
  | blanks {blanks : List Char} : (∀ c ∈ blanks, isBlank c = true) → Renders [] blanks
  | token {blanks rest : List Char} {token : Token} {tokens : List Token} :
      (∀ c ∈ blanks, isBlank c = true) → token.Lexical → (∀ c ∈ rest.head?, ¬ token.TakesIn c) →
      Renders tokens rest → Renders (token :: tokens) (blanks ++ (token.spelling ++ rest))
  | unclosed {blanks inside : List Char} :
      (∀ c ∈ blanks, isBlank c = true) → '"' ∉ inside →
      Renders [.str (String.ofList inside)] (blanks ++ '"' :: inside)

namespace Token

/-! ## Scanning -/

theorem ofWord_of_mem {word : String} (keyword : word ∈ keywords) :
    ofWord word ∈ [letWord, fnWord, ifWord, returnWord, trueWord, elseWord, falseWord] := by
  simp only [keywords, List.mem_cons, List.not_mem_nil, or_false] at keyword
  rcases keyword with rfl | rfl | rfl | rfl | rfl | rfl | rfl <;> decide

theorem ofWord_of_not_mem {word : String} (notKeyword : word ∉ keywords) :
    ofWord word = ident word := by
  cases found : keyword? word with
  | none =>
    rw [ofWord, found]
    rfl
  | some token =>
    have member := List.mem_of_find?_eq_some found
    rw [← literal_of_keyword? found] at notKeyword
    simp only [List.mem_cons, List.not_mem_nil, or_false] at member
    rcases member with rfl | rfl | rfl | rfl | rfl | rfl | rfl <;>
      exact absurd (by decide) notKeyword

theorem spelling_of_symbol? {c : Char} {token : Token} (found : symbol? c = some token) :
    c ∈ marks ∧ token.spelling = [c] ∧ token.Lexical ∧ ∀ d, ¬ token.TakesIn d := by
  unfold symbol? at found
  split at found <;> cases found <;> exact ⟨by decide, rfl, trivial, fun _ => id⟩

theorem spelling_illegal (c : Char) : (illegal c).spelling = [c] := by
  simp [spelling, literal]

/-- A token before which there is no `=` that it would take in stands alone. -/
theorem scanEquals_alone {alone joined : Token} {rest : List Char} (apart : '=' ∉ rest.head?) :
    scanEquals alone joined rest = (alone, rest) := by
  unfold scanEquals
  split
  · exact absurd rfl apart
  · rfl

/-- What holds of a scanned token and the text behind it. -/
structure Munches (text : List Char) (scanned : Token × List Char) : Prop where
  spelled : text = scanned.1.spelling ++ scanned.2
  lexical : scanned.1.Lexical
  maximal : ∀ c ∈ scanned.2.head?, ¬ scanned.1.TakesIn c

/-- Dropping a run of characters stops at one that is not of the run. -/
theorem stops_dropWhile (p : Char → Bool) (text : List Char) :
    ∀ c ∈ (text.dropWhile p).head?, p c = false := by
  intro c first
  have stops := List.head?_dropWhile_not p text
  rwa [Option.mem_def.mp first] at stops

theorem munches_word {c : Char} (letter : isLetter c = true) (rest : List Char) :
    Munches (c :: rest)
      (ofWord (String.ofList (c :: rest.takeWhile isLetter)), rest.dropWhile isLetter) := by
  have maximal {d : Char} (first : d ∈ (rest.dropWhile isLetter).head?) : ¬ isLetter d = true :=
    Bool.eq_false_iff.mp (stops_dropWhile isLetter rest d first)
  have whole : c :: rest = (c :: rest.takeWhile isLetter) ++ rest.dropWhile isLetter :=
    congrArg (c :: ·) List.takeWhile_append_dropWhile.symm
  have letters : ∀ d ∈ c :: rest.takeWhile isLetter, isLetter d = true :=
    List.forall_mem_cons.mpr ⟨letter, fun d => List.all_eq_true.mp List.all_takeWhile d⟩
  generalize word : String.ofList (c :: rest.takeWhile isLetter) = text at *
  rw [← String.toList_ofList (l := c :: rest.takeWhile isLetter), word] at whole letters
  have some : text ≠ "" := by
    rw [← word]
    exact fun empty => nomatch String.ofList_eq_empty_iff.mp empty
  have spelled := literal_ofWord text
  by_cases keyword : text ∈ keywords
  · have reserved := ofWord_of_mem keyword
    generalize ofWord text = t at reserved spelled
    subst spelled
    simp only [List.mem_cons, List.not_mem_nil, or_false] at reserved
    rcases reserved with rfl | rfl | rfl | rfl | rfl | rfl | rfl <;>
      exact ⟨whole, trivial, fun _ => maximal⟩
  · rw [ofWord_of_not_mem keyword]
    exact ⟨whole, ⟨some, letters, keyword⟩, fun _ => maximal⟩

theorem munches_int {c : Char} (digit : c.isDigit = true) (rest : List Char) :
    Munches (c :: rest)
      (int (String.ofList (c :: rest.takeWhile Char.isDigit)), rest.dropWhile Char.isDigit) := by
  refine ⟨?_, ⟨?_, ?_⟩, fun d first => ?_⟩
  · show c :: rest = (String.ofList (c :: rest.takeWhile Char.isDigit)).toList ++ _
    rw [String.toList_ofList, List.cons_append, List.takeWhile_append_dropWhile]
  · exact fun empty => nomatch String.ofList_eq_empty_iff.mp empty
  · rw [String.toList_ofList]
    exact List.forall_mem_cons.mpr ⟨digit, fun d => List.all_eq_true.mp List.all_takeWhile d⟩
  · exact Bool.eq_false_iff.mp (stops_dropWhile Char.isDigit rest d first)

theorem munches_scanEquals {c : Char} {alone joined : Token} (single : alone.spelling = [c])
    (double : joined.spelling = [c, '=']) (lexical : alone.Lexical ∧ joined.Lexical)
    (alike : ∀ d, (alone.TakesIn d → d = '=') ∧ ¬ joined.TakesIn d) (rest : List Char) :
    Munches (c :: rest) (scanEquals alone joined rest) := by
  unfold scanEquals
  split
  · exact ⟨by rw [double]; rfl, lexical.2, fun d _ => (alike d).2⟩
  · next notEquals =>
    refine ⟨by rw [single]; rfl, lexical.1, fun d first takesIn => ?_⟩
    cases (alike d).1 takesIn
    cases rest with
    | nil => cases first
    | cons e rest =>
      cases first
      exact notEquals rest rfl

theorem munches_symbol {c : Char} (solid : isBlank c = false) (notLetter : isLetter c = false)
    (notDigit : c.isDigit = false) (notEquals : c ≠ '=') (notBang : c ≠ '!') (notQuote : c ≠ '"')
    (rest : List Char) : Munches (c :: rest) ((symbol? c).getD (illegal c), rest) := by
  cases found : symbol? c with
  | some token =>
    obtain ⟨_, spelled, lexical, ends⟩ := spelling_of_symbol? found
    exact ⟨(congrArg (· ++ rest) spelled).symm, lexical, fun d _ => ends d⟩
  | none =>
    have noMark : c ∉ marks := by
      -- The first three marks are excluded, and the others are symbols.
      simp only [marks, List.mem_cons, List.not_mem_nil, or_false]
      rintro (rfl | rfl | rfl | rfl | rfl | rfl | rfl | rfl | rfl | rfl | rfl | rfl | rfl | rfl |
        rfl)
      · exact notEquals rfl
      · exact notBang rfl
      · exact notQuote rfl
      all_goals cases found
    have spelled := spelling_illegal c
    exact ⟨(congrArg (· ++ rest) spelled).symm, ⟨solid, notLetter, notDigit, noMark⟩, fun _ _ => id⟩

/-- A string that is closed ends at the first quote. -/
theorem munches_str {rest : List Char} (closed : '"' ∈ rest) :
    Munches ('"' :: rest)
      (str (String.ofList (rest.takeWhile (· != '"'))), (rest.dropWhile (· != '"')).drop 1) := by
  obtain ⟨inside, behind, rfl, unquoted⟩ := List.eq_append_cons_of_mem closed
  have all : ∀ c ∈ inside, (c != '"') = true := fun c member =>
    bne_iff_ne.mpr fun same => unquoted (same ▸ member)
  obtain ⟨taken, left⟩ := @span_run (· != '"') inside ('"' :: behind) all
    fun c first => by cases first; rfl
  rw [taken, left]
  refine ⟨?_, ?_, fun _ _ => id⟩
  · simp [spelling]
  · show '"' ∉ (String.ofList inside).toList
    rwa [String.toList_ofList]

/-- The text begins with the spelling of the token that is scanned from it. -/
theorem munches_scan {c : Char} {rest : List Char} (solid : isBlank c = false)
    (closed : c = '"' → '"' ∈ rest) : Munches (c :: rest) (scan c rest) := by
  unfold scan
  split
  · next equals =>
    subst equals
    exact @munches_scanEquals '=' assign eq rfl rfl ⟨trivial, trivial⟩ (fun _ => ⟨id, id⟩) rest
  · next notEquals =>
    split
    · next bang =>
      subst bang
      exact @munches_scanEquals '!' bang notEq rfl rfl ⟨trivial, trivial⟩ (fun _ => ⟨id, id⟩) rest
    · next notBang =>
      split
      · next quote =>
        subst quote
        exact munches_str (closed rfl)
      · next notQuote =>
        split
        · next letter => exact munches_word letter rest
        · next notLetter =>
          split
          · next digit => exact munches_int digit rest
          · next notDigit =>
            exact munches_symbol solid (Bool.eq_false_iff.mpr notLetter)
              (Bool.eq_false_iff.mpr notDigit) notEquals notBang notQuote rest

/-! ## Whole texts -/

theorem renders_lex (text : List Char) : Renders (lex text) text := by
  fun_induction lex text with
  | case1 text blank => exact .blanks (List.dropWhile_eq_nil_iff.mp blank)
  | case2 text c rest found ih =>
    have solid : isBlank c = false := stops_dropWhile isBlank text c (by rw [found]; rfl)
    have blanks : ∀ d ∈ text.takeWhile isBlank, isBlank d = true :=
      fun d => List.all_eq_true.mp List.all_takeWhile d
    have whole : text = text.takeWhile isBlank ++ c :: rest := by
      rw [← found, List.takeWhile_append_dropWhile]
    by_cases closed : c = '"' → '"' ∈ rest
    · obtain ⟨spelled, lexical, maximal⟩ := munches_scan solid closed
      have renders := Renders.token blanks lexical maximal ih
      rwa [← spelled, ← whole] at renders
    · obtain ⟨rfl, unclosed⟩ := Classical.not_imp.mp closed
      have renders := Renders.unclosed blanks unclosed
      rw [← whole] at renders
      rwa [scan_unclosed unclosed, lex_blank rfl]

/-- A spelling is read as its token, if the token takes in nothing of what follows. -/
theorem lex_spelling {token : Token} {rest : List Char} (lexical : token.Lexical)
    (maximal : ∀ c ∈ rest.head?, ¬ token.TakesIn c) :
    lex (token.spelling ++ rest) = token :: lex rest := by
  cases token with
  | eof => cases lexical
  | illegal c =>
    obtain ⟨solid, notLetter, notDigit, noMark⟩ := lexical
    have scanned : scan c rest = (illegal c, rest) := by
      have other {d : Char} (mark : d ∈ marks) : c ≠ d := fun same => noMark (same ▸ mark)
      have none : symbol? c = none :=
        Option.eq_none_iff_forall_ne_some.mpr fun _ found => noMark (spelling_of_symbol? found).1
      unfold scan
      rw [if_neg (other (by decide)), if_neg (other (by decide)), if_neg (other (by decide)),
        if_neg (Bool.eq_false_iff.mp notLetter), if_neg (Bool.eq_false_iff.mp notDigit), none]
      rfl
    rw [spelling_illegal, List.singleton_append, lex_cons solid, scanned]
  | ident text =>
    obtain ⟨some, letters, notKeyword⟩ := lexical
    have read := lex_word some letters fun c first => Bool.eq_false_iff.mpr (maximal c first)
    rwa [ofWord_of_not_mem notKeyword] at read
  | int text =>
    obtain ⟨some, digits⟩ := lexical
    have nonempty : text.toList ≠ [] := fun empty => some (String.toList_eq_nil_iff.mp empty)
    have read := lex_digits nonempty digits fun c first => Bool.eq_false_iff.mpr (maximal c first)
    rwa [String.ofList_toList] at read
  | str text =>
    rw [spelling, List.cons_append, List.append_assoc]
    exact lex_str lexical rest
  | letWord | fnWord | ifWord | returnWord | trueWord | elseWord | falseWord =>
    exact lex_keyword (by decide) fun c first => Bool.eq_false_iff.mpr (maximal c first)
  | assign =>
    have scanned : scan '=' rest = (assign, rest) :=
      scanEquals_alone fun first => maximal '=' first rfl
    have spelled : assign.spelling = ['='] := rfl
    rw [spelled, List.singleton_append, lex_cons (by decide), scanned]
  | bang =>
    have scanned : scan '!' rest = (bang, rest) :=
      scanEquals_alone fun first => maximal '=' first rfl
    have spelled : bang.spelling = ['!'] := rfl
    rw [spelled, List.singleton_append, lex_cons (by decide), scanned]
  | eq | notEq => exact lex_cons (by decide) _
  | _ => exact lex_symbol rfl rest

end Token

theorem Renders.lex_eq {tokens : List Token} {text : List Char} (renders : Renders tokens text) :
    Token.lex text = tokens := by
  induction renders with
  | blanks all => exact Token.lex_blank (List.dropWhile_eq_nil_iff.mpr all)
  | token all lexical maximal _ ih =>
    rw [Token.lex_blanks all, Token.lex_spelling lexical maximal, ih]
  | unclosed all unquoted =>
    rw [Token.lex_blanks all, Token.lex_cons (by decide), Token.scan_unclosed unquoted,
      Token.lex_blank rfl]

/-! ## Call after call -/

namespace Token

/-- One call of the lexer: the next token, and the text that is left for the next call.  At the end
of the text that is the end itself, and nothing is left. -/
def next (text : List Char) : Token × List Char :=
  match text.dropWhile isBlank with
  | [] => (eof, [])
  | c :: rest => scan c rest

/-- What so many calls of the lexer yield. -/
def calls : Nat → List Char → List Token
  | 0, _ => []
  | count + 1, text => (next text).1 :: calls count (next text).2

theorem calls_eq_lexUpTo (count : Nat) (text : List Char) :
    calls count text = lexUpTo count text := by
  induction count generalizing text with
  | zero => simp [calls, lexUpTo]
  | succ count ih =>
    rw [calls, ih]
    cases found : text.dropWhile isBlank with
    | nil =>
      have none : next text = (eof, []) := by rw [next, found]
      rw [none, lexUpTo, lexUpTo, lex_blank found, lex_blank rfl, List.take_nil, List.take_nil]
      rfl
    | cons c rest =>
      have some : next text = scan c rest := by rw [next, found]
      rw [some, lexUpTo, lexUpTo, lex_scan found, List.length_cons, Nat.add_sub_add_right]
      rfl

end Token

/-- The lexer yields the tokens that cut the text by maximal munch, and after them the end of the
text, as often as it is called. -/
theorem renders_iff_lex (text : String) :
    (∀ tokens, Renders tokens text.toList ↔ Token.lex text.toList = tokens) ∧
    ∀ count, Token.calls count text.toList =
      (Token.lex text.toList).take count ++
        List.replicate (count - (Token.lex text.toList).length) .eof := by
  refine ⟨fun tokens => ⟨Renders.lex_eq, ?_⟩, fun count => Token.calls_eq_lexUpTo count _⟩
  rintro rfl
  exact Token.renders_lex text.toList

end TreeWalk
