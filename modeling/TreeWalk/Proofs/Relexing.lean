import TreeWalk.Decimal
import TreeWalk.Token.Lex
import TreeWalk.Tree

/-!
# Lexing what was written

How a text is read that was put together from the literals of tokens.

Results:
1. each kind of token is read back from its literal, if what follows cannot belong to it
   (`Token.lex_symbol`, `Token.lex_word`, `Token.lex_digits`, `Token.lex_str`,
   `Token.lex_operator`);
2. what the lexer yields has a literal of that sort (`Token.wellFormed_of_mem_lex`).
-/

namespace TreeWalk

/-- The text begins with nothing that a name or a number before it would take in. -/
def Apart (rest : List Char) : Prop :=
  ∀ c ∈ rest.head?, isLetter c = false ∧ c.isDigit = false

theorem Apart.cons {c : Char} (apart : isLetter c = false ∧ c.isDigit = false)
    (rest : List Char) : Apart (c :: rest) := by
  intro d first
  cases first
  exact apart

/-- A word that is read as a name. -/
structure IsName (word : String) : Prop where
  nonempty : word ≠ ""
  letters : ∀ c ∈ word.toList, isLetter c = true
  named : Token.ofWord word = .ident word

/-- The text of a token is one that tokens of its kind are read from. -/
def Token.WellFormed : Token → Prop
  | ident text => IsName text
  | int text => ∀ c ∈ text.toList, c.isDigit = true
  | str text => '"' ∉ text.toList
  | _ => True

theorem isBlank_of_isLetter {c : Char} (letter : isLetter c = true) : isBlank c = false := by
  rw [Bool.eq_false_iff]
  intro blank
  simp only [isBlank, Bool.or_eq_true, beq_iff_eq] at blank
  rcases blank with (((rfl | rfl) | rfl) | rfl) | rfl <;> exact absurd letter (by decide)

theorem isBlank_of_isDigit {c : Char} (digit : c.isDigit = true) : isBlank c = false := by
  rw [Bool.eq_false_iff]
  intro blank
  simp only [isBlank, Bool.or_eq_true, beq_iff_eq] at blank
  rcases blank with (((rfl | rfl) | rfl) | rfl) | rfl <;> exact absurd digit (by decide)

theorem isLetter_of_isDigit {c : Char} (digit : c.isDigit = true) : isLetter c = false := by
  rw [Bool.eq_false_iff]
  intro letter
  rcases Bool.or_eq_true_iff.mp letter with alpha | underscore
  · have digit : c.val ≤ 57 := of_decide_eq_true (Bool.and_eq_true_iff.mp digit).2
    rcases Bool.or_eq_true_iff.mp alpha with upper | lower
    · have upper : 65 ≤ c.val := (of_decide_eq_true upper : _ ∧ _).1
      exact absurd (UInt32.le_trans upper digit) (by decide)
    · have lower : 97 ≤ c.val := of_decide_eq_true (Bool.and_eq_true_iff.mp lower).1
      exact absurd (UInt32.le_trans lower digit) (by decide)
  · rw [beq_iff_eq.mp underscore] at digit
    exact absurd digit (by decide)

/-- A run of characters ends where the first other one stands. -/
theorem span_run {p : Char → Bool} {run rest : List Char} (all : ∀ c ∈ run, p c = true)
    (ends : ∀ c ∈ rest.head?, p c = false) :
    (run ++ rest).takeWhile p = run ∧ (run ++ rest).dropWhile p = rest := by
  rw [List.takeWhile_append_of_pos all, List.dropWhile_append_of_pos all]
  cases rest with
  | nil => exact ⟨List.append_nil run, rfl⟩
  | cons c rest =>
    have stops := ends c rfl
    rw [List.takeWhile_cons, List.dropWhile_cons, stops]
    exact ⟨List.append_nil run, rfl⟩

namespace Token

/-! ## One token -/

theorem lex_cons {c : Char} (solid : isBlank c = false) (rest : List Char) :
    lex (c :: rest) = (scan c rest).1 :: lex (scan c rest).2 :=
  lex_scan (by rw [List.dropWhile_cons, solid]; rfl)

theorem lex_blanks {blanks : List Char} (all : ∀ c ∈ blanks, isBlank c = true) (rest : List Char) :
    lex (blanks ++ rest) = lex rest := by
  have skipped : (blanks ++ rest).dropWhile isBlank = rest.dropWhile isBlank :=
    List.dropWhile_append_of_pos all
  cases found : rest.dropWhile isBlank with
  | nil => rw [lex_blank (skipped.trans found), lex_blank found]
  | cons c rest' => rw [lex_scan (skipped.trans found), lex_scan found]

theorem lex_space (rest : List Char) : lex (' ' :: rest) = lex rest :=
  lex_blanks (List.forall_mem_singleton.mpr rfl) rest

theorem lex_symbol {c : Char} {t : Token} (found : symbol? c = some t) (rest : List Char) :
    lex (c :: rest) = t :: lex rest := by
  unfold symbol? at found
  split at found <;> cases found <;> exact lex_cons (by decide) rest

theorem lex_word {word : String} {rest : List Char} (some : word ≠ "")
    (letters : ∀ c ∈ word.toList, isLetter c = true) (ends : ∀ c ∈ rest.head?, isLetter c = false) :
    lex (word.toList ++ rest) = ofWord word :: lex rest := by
  cases chars : word.toList with
  | nil => exact absurd (String.toList_eq_nil_iff.mp chars) some
  | cons c cs =>
    rw [chars] at letters
    have letter := letters c (List.mem_cons_self ..)
    obtain ⟨taken, left⟩ :=
      span_run (fun d member => letters d (List.mem_cons_of_mem c member)) ends
    have scanned : scan c (cs ++ rest) = (ofWord word, rest) := by
      unfold scan
      rw [if_neg (by rintro rfl; exact absurd letter (by decide)),
        if_neg (by rintro rfl; exact absurd letter (by decide)),
        if_neg (by rintro rfl; exact absurd letter (by decide)), if_pos letter, taken, left,
        ← chars, String.ofList_toList]
    rw [List.cons_append, lex_cons (isBlank_of_isLetter letter), scanned]

theorem lex_keyword {t : Token} {rest : List Char}
    (keyword : t ∈ [letWord, fnWord, ifWord, returnWord, trueWord, elseWord, falseWord])
    (ends : ∀ c ∈ rest.head?, isLetter c = false) :
    lex (t.literal.toList ++ rest) = t :: lex rest := by
  have reserved : ofWord t.literal = t ∧ t.literal ≠ "" ∧ t.literal.toList.all isLetter = true := by
    simp only [List.mem_cons, List.not_mem_nil, or_false] at keyword
    rcases keyword with rfl | rfl | rfl | rfl | rfl | rfl | rfl <;> decide
  obtain ⟨same, nonempty, letters⟩ := reserved
  rw [lex_word nonempty (List.all_eq_true.mp letters) ends, same]

theorem lex_digits {digits rest : List Char} (some : digits ≠ [])
    (all : ∀ c ∈ digits, c.isDigit = true) (ends : ∀ c ∈ rest.head?, c.isDigit = false) :
    lex (digits ++ rest) = .int (String.ofList digits) :: lex rest := by
  cases digits with
  | nil => exact absurd rfl some
  | cons c cs =>
    have digit := all c (List.mem_cons_self ..)
    obtain ⟨taken, left⟩ := span_run (fun d member => all d (List.mem_cons_of_mem c member)) ends
    have scanned : scan c (cs ++ rest) = (.int (String.ofList (c :: cs)), rest) := by
      unfold scan
      rw [if_neg (by rintro rfl; exact absurd digit (by decide)),
        if_neg (by rintro rfl; exact absurd digit (by decide)),
        if_neg (by rintro rfl; exact absurd digit (by decide)),
        if_neg (Bool.eq_false_iff.mp (isLetter_of_isDigit digit)), if_pos digit, taken, left]
    rw [List.cons_append, lex_cons (isBlank_of_isDigit digit), scanned]

theorem lex_str {text : String} (unquoted : '"' ∉ text.toList) (rest : List Char) :
    lex ('"' :: (text.toList ++ '"' :: rest)) = .str text :: lex rest := by
  have inside : ∀ c ∈ text.toList, (c != '"') = true := fun c member =>
    bne_iff_ne.mpr fun same => unquoted (same ▸ member)
  obtain ⟨taken, left⟩ := @span_run (· != '"') text.toList ('"' :: rest) inside
    fun c first => by cases first; rfl
  have scanned : scan '"' (text.toList ++ '"' :: rest) = (.str text, rest) := by
    unfold scan
    rw [if_neg (by decide), if_neg (by decide), if_pos rfl, taken, left, String.ofList_toList]
    rfl
  rw [lex_cons (by decide), scanned]

/-- A string without a closing quote reaches to the end of the text. -/
theorem scan_unclosed {rest : List Char} (unclosed : '"' ∉ rest) :
    scan '"' rest = (.str (String.ofList rest), []) := by
  have inside : ∀ c ∈ rest, (c != '"') = true := fun c member =>
    bne_iff_ne.mpr fun same => unclosed (same ▸ member)
  obtain ⟨taken, left⟩ := @span_run (· != '"') rest [] inside nofun
  rw [List.append_nil] at taken left
  unfold scan
  rw [if_neg (by decide), if_neg (by decide), if_pos rfl, taken, left]
  rfl

/-- An infix operator is written with blanks around it. -/
theorem lex_operator (op : Operator) (rest : List Char) :
    lex (op.symbol.toList ++ ' ' :: rest) = op.token :: lex rest := by
  cases op <;> exact (lex_cons rfl _).trans (congrArg _ (lex_space rest))

theorem lex_sign {op : Operator} {rest : List Char} (isSign : op = .bang ∨ op = .minus)
    (apart : rest.head? ≠ some '=') : lex (op.symbol.toList ++ rest) = op.token :: lex rest := by
  rcases isSign with rfl | rfl
  · have scanned : scan '!' rest = (.bang, rest) := by
      show scanEquals bang notEq rest = _
      unfold scanEquals
      split
      · exact absurd rfl apart
      · rfl
    have symbol : Operator.bang.symbol.toList = ['!'] := rfl
    rw [symbol, List.singleton_append, lex_cons (by decide), scanned]
    rfl
  · exact lex_symbol rfl rest

/-! ## What the lexer yields -/

theorem wellFormed_scan (c : Char) (rest : List Char) : (scan c rest).1.WellFormed := by
  unfold scan
  repeat' split
  · unfold scanEquals
    split <;> trivial
  · unfold scanEquals
    split <;> trivial
  · intro member
    rw [String.toList_ofList] at member
    exact absurd (List.all_eq_true.mp List.all_takeWhile _ member) (by decide)
  · next letter =>
    -- A keyword says nothing; any other word is a name.
    generalize chars : c :: rest.takeWhile isLetter = word
    have letters : ∀ d ∈ word, isLetter d = true := by
      rw [← chars]
      intro d member
      rcases List.mem_cons.mp member with rfl | inside
      · exact letter
      · exact List.all_eq_true.mp List.all_takeWhile _ inside
    cases found : keyword? (String.ofList word) with
    | none =>
      have named : ofWord (String.ofList word) = .ident (String.ofList word) := by
        rw [ofWord, found]
        rfl
      rw [named]
      refine ⟨fun empty => ?_, by rwa [String.toList_ofList], named⟩
      rw [← chars, String.ofList_eq_empty_iff] at empty
      cases empty
    | some token =>
      rw [ofWord, found]
      have member := List.mem_of_find?_eq_some found
      simp only [List.mem_cons, List.not_mem_nil, or_false] at member
      rcases member with rfl | rfl | rfl | rfl | rfl | rfl | rfl <;> trivial
  · next digit =>
    intro d member
    rw [String.toList_ofList] at member
    rcases List.mem_cons.mp member with rfl | inside
    · exact digit
    · exact List.all_eq_true.mp List.all_takeWhile _ inside
  · unfold symbol?
    split <;> trivial

theorem wellFormed_of_mem_lex {text : List Char} {token : Token} (member : token ∈ lex text) :
    token.WellFormed := by
  fun_induction lex text with
  | case1 => cases member
  | case2 text c rest _ ih =>
    rcases List.mem_cons.mp member with rfl | inside
    · exact wellFormed_scan c rest
    · exact ih inside

end Token

end TreeWalk
