import TreeWalk.Token.Lex

/-!
# Reading a text byte by byte

A text is kept as bytes, and a cursor passes over them one by one.  Whatever separates, begins or
ends a token is a character of ASCII, so the cursor tells one token from the next by single bytes
and need not decode the characters it passes.  What a token keeps of its text is taken out as a
slice.  A slice that begins or ends inside a character, or outside the text, cannot be taken, and
then the call that asks for it fails.

Results:
1. passing over a run ends, wherever the cursor stands (`Cursor.skip`, `Cursor.toQuote`);
2. a slice can be taken exactly if its ends are in order and between characters
   (`Span.slice?_isSome`).
-/

namespace TreeWalk

/-! ## Slices -/

/-- A part of a text: the bytes from `start` on that are before `stop`. -/
structure Span where
  start : Nat
  stop : Nat
deriving DecidableEq, Repr

/-- The part lies in the text, and no character is cut at either end of it. -/
structure Span.Within (span : Span) (text : String) : Prop where
  ordered : span.start ≤ span.stop
  inside : span.stop ≤ text.utf8ByteSize
  start : (⟨span.start⟩ : String.Pos.Raw).IsValid text
  stop : (⟨span.stop⟩ : String.Pos.Raw).IsValid text

theorem Span.within_iff {span : Span} {text : String} :
    span.Within text ↔ span.start ≤ span.stop ∧ span.stop ≤ text.utf8ByteSize ∧
      (⟨span.start⟩ : String.Pos.Raw).IsValid text ∧ (⟨span.stop⟩ : String.Pos.Raw).IsValid text :=
  ⟨fun ⟨ordered, inside, start, stop⟩ => ⟨ordered, inside, start, stop⟩,
    fun ⟨ordered, inside, start, stop⟩ => ⟨ordered, inside, start, stop⟩⟩

instance (span : Span) (text : String) : Decidable (span.Within text) :=
  decidable_of_iff' _ Span.within_iff

/-- The part of the text, if it can be taken. -/
def Span.slice? (span : Span) (text : String) : Option String :=
  if span.Within text then some (String.Pos.Raw.extract text ⟨span.start⟩ ⟨span.stop⟩) else none

theorem Span.slice?_isSome {span : Span} {text : String} :
    (span.slice? text).isSome ↔ span.Within text := by
  unfold slice?
  split <;> simp_all

/-! ## The cursor -/

/-- The byte at a position of a text.  What comes behind the text reads as zero. -/
def byteAt (text : String) (position : Nat) : UInt8 :=
  text.toByteArray[position]?.getD 0

theorem byteAt_of_le {text : String} {position : Nat} (behind : text.utf8ByteSize ≤ position) :
    byteAt text position = 0 := by
  have none : text.toByteArray[position]? = none :=
    getElem?_neg _ _ (Nat.not_lt.mpr behind)
  rw [byteAt, none]
  rfl

/-- A place in a text. -/
structure Cursor where
  text : String
  position : Nat
  /-- Where the next byte is read. -/
  ahead : Nat
  /-- The byte that was read last. -/
  byte : UInt8

/-- A byte as the character of that code.  Bytes of characters outside ASCII have codes outside
ASCII. -/
def charOf (byte : UInt8) : Char :=
  Char.ofNat byte.toNat

/-- The sorts of characters that tokens, or the blanks between them, are runs of. -/
inductive CharSort where
  | blank
  | letter
  | digit

def CharSort.test : CharSort → Char → Bool
  | blank => isBlank
  | letter => isLetter
  | digit => Char.isDigit

/-- What comes behind a text belongs to no run. -/
theorem CharSort.test_zero (sort : CharSort) : sort.test (charOf 0) = false := by
  cases sort <;> decide

namespace Cursor

/-- Reads the next byte. -/
def advance (c : Cursor) : Cursor :=
  { c with byte := byteAt c.text c.ahead, position := c.ahead, ahead := c.ahead + 1 }

/-- The cursor on the first byte of a text. -/
def start (text : String) : Cursor :=
  advance ⟨text, 0, 0, 0⟩

/-- The byte behind the one under the cursor. -/
def peek (c : Cursor) : UInt8 :=
  byteAt c.text c.ahead

/-- Reads so many bytes. -/
def advanceBy : Nat → Cursor → Cursor
  | 0, c => c
  | count + 1, c => advanceBy count c.advance

/-- Passes over a run of characters of one sort. -/
def skip (sort : CharSort) (c : Cursor) : Cursor :=
  if sort.test (charOf c.byte) then c.advance.skip sort else c
-- Behind the text the next byte is none of the run, whatever byte the cursor was on.
termination_by (c.text.utf8ByteSize - c.ahead, if sort.test (charOf c.byte) then 1 else 0)
decreasing_by
  next inRun =>
  by_cases behind : c.text.utf8ByteSize ≤ c.ahead
  · have zero : c.advance.byte = 0 := byteAt_of_le behind
    have still : c.advance.text.utf8ByteSize - c.advance.ahead = c.text.utf8ByteSize - c.ahead :=
      (Nat.sub_eq_zero_of_le (Nat.le_succ_of_le behind)).trans (Nat.sub_eq_zero_of_le behind).symm
    rw [zero, sort.test_zero, inRun, still]
    exact Prod.Lex.right _ Nat.zero_lt_one
  · exact Prod.Lex.left _ _ (Nat.sub_lt_sub_left (Nat.not_le.mp behind) (Nat.lt_succ_self _))

/-- Goes to the next quote, or to the end of the text where there is none. -/
def toQuote (c : Cursor) : Cursor :=
  let next := c.advance
  if charOf next.byte = '"' ∨ next.text.utf8ByteSize ≤ next.position then next else next.toQuote
termination_by c.text.utf8ByteSize - c.ahead
decreasing_by
  next goesOn =>
  exact Nat.sub_lt_sub_left (Nat.not_le.mp (not_or.mp goesOn).2) (Nat.lt_succ_self _)

end Cursor

/-! ## One call -/

/-- What comes of a call for a token. -/
structure Call where
  /-- The token, unless a slice cannot be taken. -/
  token : Option Token
  after : Cursor
  /-- The slices that were asked for. -/
  slices : List Span
  /-- A character was asked for where there is none, and the replacement character was put in its
  place. -/
  replaced : Bool

namespace Cursor

/-- A token without a text. -/
def bare (token : Token) (after : Cursor) : Call :=
  ⟨some token, after, [], false⟩

/-- The token `alone`, or `joined` where the next byte is `=`. -/
def equals (alone joined : Token) (c : Cursor) : Call :=
  if charOf c.peek = '=' then bare joined c.advance.advance else bare alone c.advance

/-- A token whose text is a run of characters of one sort. -/
def run (sort : CharSort) (ofText : String → Token) (c : Cursor) : Call :=
  let after := c.skip sort
  let span : Span := ⟨c.position, after.position⟩
  ⟨(span.slice? c.text).map ofText, after, [span], false⟩

/-- A string.  The cursor is on its first quote. -/
def quoted (c : Cursor) : Call :=
  let last := c.toQuote
  let span : Span := ⟨c.position + 1, min last.position c.text.utf8ByteSize⟩
  ⟨(span.slice? c.text).map .str, last.advance, [span], false⟩

/-- A character that begins no other token. -/
def stray (c : Cursor) : Call :=
  let span : Span := ⟨c.position, c.text.utf8ByteSize⟩
  match span.slice? c.text with
  | none => ⟨none, c, [span], false⟩
  | some rest =>
    let found := rest.toList.head?
    let char := found.getD '\uFFFD'
    ⟨some (.illegal char), (c.advanceBy (char.utf8Size - 1)).advance, [span], found.isNone⟩

/-- A call for the token that begins under the cursor. -/
def scan (c : Cursor) : Call :=
  let char := charOf c.byte
  if char = '=' then c.equals .assign .eq
  else if char = '!' then c.equals .bang .notEq
  else if char = '"' then c.quoted
  else
    match Token.symbol? char with
    | some token => bare token c.advance
    | none =>
      -- A null character in the text is a stray character.
      if c.byte = 0 ∧ c.text.utf8ByteSize ≤ c.position then bare .eof c
      else if isLetter char then c.run .letter .ofWord
      else if char.isDigit then c.run .digit .int
      else c.stray

/-- A call for the next token. -/
def next (c : Cursor) : Call :=
  (c.skip .blank).scan

/-- The tokens of so many calls and the cursor behind them, unless one of the calls fails. -/
def calls? : Nat → Cursor → Option (List Token × Cursor)
  | 0, c => some ([], c)
  | count + 1, c =>
    match c.next.token with
    | none => none
    | some token => (c.next.after.calls? count).map fun (tokens, last) => (token :: tokens, last)

end Cursor

end TreeWalk
