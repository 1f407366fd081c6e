import Mathlib.Data.List.Chain
import TreeWalk.Proofs.MaximalMunch

/-!
# Spacing

Tokens may be written with any blanks between them, and mostly with none.  Two of them need a blank
if the first would otherwise take in the beginning of the second: two words, two integers, and `=`
or `!` before a token that begins with `=`.

Results:
1. a token takes in the first character of another exactly if the two are such a pair
   (`Token.Begins.takesIn_iff`);
2. a spelling is read back exactly if its token takes in nothing of what follows
   (`Token.lex_spelling_iff`);
3. so tokens that are written with blanks are read back exactly if blanks stand where they are
   needed, and behind them comes the end of the text, however often the lexer is called
   (`lex_spaced`).
-/

namespace TreeWalk

namespace Token

/-! ## Pairs of tokens -/

/-- A name or a keyword. -/
def isWord : Token → Bool
  | ident _ | letWord | fnWord | ifWord | returnWord | trueWord | elseWord | falseWord => true
  | _ => false

def isInt : Token → Bool
  | int _ => true
  | _ => false

/-- Two tokens that need a blank between them. -/
def Merges (token next : Token) : Prop :=
  (token.isWord ∧ next.isWord) ∨ (token.isInt ∧ next.isInt) ∨
    ((token = assign ∨ token = bang) ∧ (next = assign ∨ next = eq))

instance (token next : Token) : Decidable (token.Merges next) :=
  inferInstanceAs (Decidable (_ ∨ _))

/-- The spelling begins with the character `c`, which tells what sort of token it is. -/
structure Begins (token : Token) (c : Char) (cs : List Char) : Prop where
  spelled : token.spelling = c :: cs
  solid : isBlank c = false
  word : isLetter c = token.isWord
  int : c.isDigit = token.isInt
  equals : c = '=' ↔ token = assign ∨ token = eq
  closed : c = '"' → '"' ∈ cs

theorem Begins.of_letter {token : Token} {c : Char} {cs : List Char}
    (spelled : token.spelling = c :: cs) (letter : isLetter c = true) (isWord : token.isWord = true)
    (notInt : token.isInt = false) (notEquals : token ≠ assign ∧ token ≠ eq) :
    token.Begins c cs := by
  have notDigit : c.isDigit = false := by
    rw [Bool.eq_false_iff]
    intro digit
    exact Bool.eq_false_iff.mp (isLetter_of_isDigit digit) letter
  refine ⟨spelled, isBlank_of_isLetter letter, letter.trans isWord.symm,
    notDigit.trans notInt.symm, ⟨?_, fun isEquals => ?_⟩, ?_⟩
  · rintro rfl
    exact absurd letter (by decide)
  · exact absurd isEquals (not_or.mpr notEquals)
  · rintro rfl
    exact absurd letter (by decide)

theorem Lexical.begins {token : Token} (lexical : token.Lexical) : ∃ c cs, token.Begins c cs := by
  cases token with
  | eof => cases lexical
  | illegal c =>
    obtain ⟨solid, notLetter, notDigit, noMark⟩ := lexical
    have other {d : Char} (mark : d ∈ marks) : c ≠ d := fun same => noMark (same ▸ mark)
    refine ⟨c, [], spelling_illegal c, solid, notLetter, notDigit, ⟨fun same => ?_, nofun⟩,
      fun same => ?_⟩
    · exact absurd same (other (by decide))
    · exact absurd same (other (by decide))
  | ident text =>
    obtain ⟨some, letters, _⟩ := lexical
    cases chars : text.toList with
    | nil => exact absurd (String.toList_eq_nil_iff.mp chars) some
    | cons c cs =>
      have letter := letters c (by rw [chars]; exact List.mem_cons_self ..)
      exact ⟨c, cs, .of_letter chars letter rfl rfl ⟨nofun, nofun⟩⟩
  | int text =>
    obtain ⟨some, digits⟩ := lexical
    cases chars : text.toList with
    | nil => exact absurd (String.toList_eq_nil_iff.mp chars) some
    | cons c cs =>
      have digit := digits c (by rw [chars]; exact List.mem_cons_self ..)
      refine ⟨c, cs, chars, isBlank_of_isDigit digit, isLetter_of_isDigit digit, digit,
        ⟨?_, nofun⟩, ?_⟩
      · rintro rfl
        exact absurd digit (by decide)
      · rintro rfl
        exact absurd digit (by decide)
  | str text =>
    refine ⟨'"', text.toList ++ ['"'], rfl, rfl, rfl, rfl, ⟨fun same => ?_, nofun⟩, fun _ => ?_⟩
    · exact absurd same (by decide)
    · exact List.mem_append_right _ (List.mem_singleton.mpr rfl)
  | letWord | fnWord | ifWord | returnWord | trueWord | elseWord | falseWord =>
    exact ⟨_, _, .of_letter rfl (by decide) rfl rfl (by decide)⟩
  | _ => exact ⟨_, _, rfl, rfl, rfl, rfl, by decide, by decide⟩

theorem Begins.takesIn_iff {next : Token} {c : Char} {cs : List Char} (begins : next.Begins c cs)
    (token : Token) : token.TakesIn c ↔ token.Merges next := by
  have word := begins.word
  have int := begins.int
  have equals := begins.equals
  cases token <;> simp [TakesIn, Merges, isWord, isInt, word, int, equals]

theorem not_takesIn_of_isBlank {token : Token} {c : Char} (blank : isBlank c = true) :
    ¬ token.TakesIn c := by
  intro takesIn
  have solid : isBlank c = false := by
    cases token with
    | ident _ | letWord | fnWord | ifWord | returnWord | trueWord | elseWord | falseWord =>
      exact isBlank_of_isLetter takesIn
    | int _ => exact isBlank_of_isDigit takesIn
    | assign | bang =>
      cases takesIn
      rfl
    | _ => cases takesIn
  rw [blank] at solid
  cases solid

/-! ## Spellings -/

theorem lex_spelling_iff {token : Token} {rest : List Char} {tokens : List Token}
    (lexical : token.Lexical) :
    lex (token.spelling ++ rest) = token :: tokens ↔
      (∀ c ∈ rest.head?, ¬ token.TakesIn c) ∧ lex rest = tokens := by
  constructor
  · intro read
    obtain ⟨c, cs, spelled, solid, _, _, _, closed⟩ := lexical.begins
    rw [spelled, List.cons_append, lex_cons solid] at read
    obtain ⟨isToken, readRest⟩ := List.cons.inj read
    have munches := munches_scan solid fun quote => List.mem_append_left rest (closed quote)
    -- The spelling is all that was taken, so the rest is what is left.
    have left : rest = (scan c (cs ++ rest)).2 := by
      have whole := munches.spelled
      rw [isToken, spelled] at whole
      exact (List.append_right_inj (c :: cs)).mp whole
    have maximal := munches.maximal
    rw [← left] at readRest maximal
    rw [isToken] at maximal
    exact ⟨maximal, readRest⟩
  · rintro ⟨maximal, rfl⟩
    exact lex_spelling lexical maximal

end Token

/-! ## Tokens with blanks -/

/-- A token, with the blanks that are written before it. -/
structure Spaced where
  blanks : List Char
  token : Token
  blank : ∀ c ∈ blanks, isBlank c = true
  lexical : token.Lexical

namespace Spaced

/-- What is written: the tokens, each behind its blanks, and then some last characters. -/
def text (last : List Char) : List Spaced → List Char
  | [] => last
  | piece :: more => piece.blanks ++ (piece.token.spelling ++ text last more)

/-- Blanks stand between any two tokens that need them. -/
def Separated (pieces : List Spaced) : Prop :=
  pieces.IsChain fun piece next => piece.token.Merges next.token → next.blanks ≠ []

instance (pieces : List Spaced) : Decidable (Separated pieces) :=
  inferInstanceAs (Decidable (pieces.IsChain _))

theorem takesIn_text_iff {last : List Char} (blank : ∀ c ∈ last, isBlank c = true)
    (token : Token) (pieces : List Spaced) :
    (∀ c ∈ (text last pieces).head?, ¬ token.TakesIn c) ↔
      ∀ next ∈ pieces.head?, token.Merges next.token → next.blanks ≠ [] := by
  cases pieces with
  | nil =>
    refine ⟨fun _ => nofun, fun _ c first => ?_⟩
    exact Token.not_takesIn_of_isBlank (blank c (List.mem_of_mem_head? first))
  | cons next more =>
    obtain ⟨blanks, _, isBlanks, lexical⟩ := next
    cases blanks with
    | nil =>
      obtain ⟨c, cs, begins⟩ := lexical.begins
      simp [text, begins.spelled, begins.takesIn_iff]
    | cons b bs =>
      have notFirst := @Token.not_takesIn_of_isBlank token b (isBlanks b (List.mem_cons_self ..))
      simp [text, notFirst]

theorem lex_text_iff {last : List Char} (blank : ∀ c ∈ last, isBlank c = true)
    (pieces : List Spaced) :
    Token.lex (text last pieces) = pieces.map token ↔ Separated pieces := by
  induction pieces with
  | nil =>
    have nothing : Token.lex last = [] := Token.lex_blank (List.dropWhile_eq_nil_iff.mpr blank)
    exact iff_of_true nothing List.isChain_nil
  | cons piece more ih =>
    rw [text, Token.lex_blanks piece.blank, List.map_cons, Token.lex_spelling_iff piece.lexical,
      takesIn_text_iff blank, ih, Separated, Separated, List.isChain_cons]

end Spaced

/-- Tokens that are spelled one after another read as themselves exactly if there are blanks between
those that would run into each other. -/
theorem lex_spaced (pieces : List Spaced) {last : List Char}
    (blank : ∀ c ∈ last, isBlank c = true) :
    (Token.lex (Spaced.text last pieces) = pieces.map Spaced.token ↔ Spaced.Separated pieces) ∧
    (Spaced.Separated pieces → ∀ count, Token.calls count (Spaced.text last pieces) =
      (pieces.map Spaced.token).take count ++ List.replicate (count - pieces.length) .eof) := by
  have read := Spaced.lex_text_iff blank pieces
  refine ⟨read, fun separated count => ?_⟩
  rw [Token.calls_eq_lexUpTo, Token.lexUpTo, read.mpr separated, List.length_map]

/-- Tokens of all sorts with a single blank among them, which keeps `=` and `==` apart. -/
def crowded : List Spaced :=
  [⟨[], .ident "a", List.forall_mem_nil _, by decide, List.all_eq_true.mp (by decide), by decide⟩,
    ⟨[], .int "1", List.forall_mem_nil _, by decide, List.all_eq_true.mp (by decide)⟩,
    ⟨[], .illegal 'é', List.forall_mem_nil _, by decide, by decide, by decide, by decide⟩,
    ⟨[], .str "x", List.forall_mem_nil _, (by decide : '"' ∉ "x".toList)⟩,
    ⟨[], .ident "y", List.forall_mem_nil _, by decide, List.all_eq_true.mp (by decide), by decide⟩,
    ⟨[], .assign, List.forall_mem_nil _, trivial⟩,
    ⟨[' '], .eq, List.all_eq_true.mp (by decide), trivial⟩,
    ⟨[], .bang, List.forall_mem_nil _, trivial⟩,
    ⟨[], .notEq, List.forall_mem_nil _, trivial⟩]

/-- All tokens of `crowded` read as themselves, and behind them the end of the text, again and
again. -/
theorem lex_spaced_of_crowded :
    (∀ c ∈ ['\n'], isBlank c = true) ∧ Spaced.Separated crowded ∧
    Spaced.text ['\n'] crowded = "a1é\"x\"y= ==!!=\n".toList ∧
    Token.lex (Spaced.text ['\n'] crowded) =
      [.ident "a", .int "1", .illegal 'é', .str "x", .ident "y", .assign, .eq, .bang, .notEq] ∧
    Token.calls 11 (Spaced.text ['\n'] crowded) =
      [.ident "a", .int "1", .illegal 'é', .str "x", .ident "y", .assign, .eq, .bang, .notEq,
        .eof, .eof] := by
  have blank : ∀ c ∈ ['\n'], isBlank c = true := List.all_eq_true.mp (by decide)
  have separated : Spaced.Separated crowded := by decide
  obtain ⟨read, calls⟩ := lex_spaced crowded blank
  exact ⟨blank, separated, by decide, read.mpr separated, calls separated 11⟩

end TreeWalk
