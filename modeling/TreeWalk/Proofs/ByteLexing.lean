import TreeWalk.Proofs.Encoding
import TreeWalk.Proofs.MaximalMunch

/-!
# The cursor stays between characters

A cursor that reads a text byte by byte is between two characters whenever a token has been read,
although it decodes none of the characters that it passes: a run ends in front of a character that
is not of the run, a string in front of a quote, which no other character has a byte of, and a
stray character is passed by its length.  Only behind a string without its closing quote the cursor
leaves the text, and there it stays.

Results:
1. how far a loop gets is told by the bytes that are left (`Passes.skip`, `Passes.toQuote`), so one
   that ends between characters can be followed by the characters (`At.pass`, `At.skip`);
2. one call: a cursor between characters yields the token that is scanned from the characters, its
   slices can be taken, and it gets on and is between characters again (`At.scan`), or at the end
   of the text it yields that and stays where it is (`scan_behind`);
3. by induction on the number of calls, that is so before and after every call, and the tokens are
   those of the text (`cursor_stays_between_characters`).
-/

namespace TreeWalk

namespace Cursor

/-! ## Loops -/

/-- The bytes from the cursor on. -/
def left (c : Cursor) : List UInt8 :=
  (bytesOf c.text.toList).drop c.position

/-- The cursor has read the byte that it is on, and is about to read the one behind it. -/
structure Synced (c : Cursor) : Prop where
  byte : c.byte = byteAt c.text c.position
  ahead : c.ahead = c.position + 1

/-- `c.Passes count c'`: the cursor `c'` is so many bytes behind `c`. -/
structure Passes (c : Cursor) (count : Nat) (c' : Cursor) : Prop extends c'.Synced where
  text : c'.text = c.text
  position : c'.position = c.position + count

theorem synced_start (text : String) : (start text).Synced :=
  ⟨rfl, rfl⟩

theorem byte_eq {c : Cursor} (synced : c.Synced) : c.byte = c.left.headD 0 :=
  synced.byte.trans (byteAt_eq ..)

/-- The bytes from the cursor on are the one that it is on and those behind it. -/
theorem left_eq {c : Cursor} (synced : c.Synced) (inside : c.position < c.text.utf8ByteSize) :
    c.left = c.byte :: c.advance.left := by
  have more : c.position < (bytesOf c.text.toList).length := by
    rwa [length_bytesOf, String.utf8Len_toList]
  have behind : c.advance.left = (bytesOf c.text.toList).drop (c.position + 1) :=
    congrArg (fun n => (bytesOf c.text.toList).drop n) synced.ahead
  have whole : c.left = _ := List.drop_eq_getElem_cons more
  rw [byte_eq synced, whole, behind]
  rfl

theorem left_eq_nil {c : Cursor} (behind : c.text.utf8ByteSize ≤ c.position) : c.left = [] := by
  refine List.drop_eq_nil_of_le ?_
  rwa [length_bytesOf, String.utf8Len_toList]

namespace Passes

variable {c c' c'' : Cursor} {count count' : Nat}

theorem refl (synced : c.Synced) : c.Passes 0 c :=
  ⟨synced, rfl, rfl⟩

theorem trans (first : c.Passes count c') (second : c'.Passes count' c'') :
    c.Passes (count + count') c'' :=
  ⟨second.toSynced, second.text.trans first.text, by
    rw [second.position, first.position, Nat.add_assoc]⟩

theorem advance (synced : c.Synced) : c.Passes 1 c.advance :=
  ⟨⟨rfl, rfl⟩, rfl, synced.ahead⟩

theorem advanceBy (synced : c.Synced) (count : Nat) : c.Passes count (c.advanceBy count) := by
  induction count generalizing c with
  | zero => exact refl synced
  | succ count ih =>
    have first := advance synced
    have whole := first.trans (ih first.toSynced)
    rwa [Nat.add_comm] at whole

theorem skip (synced : c.Synced) (sort : CharSort) :
    c.Passes (c.left.takeWhile fun b => sort.test (charOf b)).length (c.skip sort) := by
  fun_induction Cursor.skip sort c with
  | case1 c inRun ih =>
    have inside : c.position < c.text.utf8ByteSize := by
      refine Nat.not_le.mp fun behind => ?_
      rw [byte_eq synced, left_eq_nil behind, List.headD_nil, sort.test_zero] at inRun
      cases inRun
    have first := advance synced
    rw [left_eq synced inside, List.takeWhile_cons, if_pos inRun, List.length_cons, Nat.add_comm]
    exact first.trans (ih first.toSynced)
  | case2 c stops =>
    have none : (c.left.takeWhile fun b => sort.test (charOf b)) = [] := by
      cases bytes : c.left with
      | nil => rfl
      | cons b bytes' =>
        have first : c.byte = b := by rw [byte_eq synced, bytes, List.headD_cons]
        rw [List.takeWhile_cons, ← first, if_neg stops]
    rw [none]
    exact refl synced

theorem toQuote (synced : c.Synced) :
    c.Passes (1 + (c.advance.left.takeWhile fun b => charOf b != '"').length) c.toQuote := by
  fun_induction Cursor.toQuote c with
  | case1 c next stops =>
    have first : c.Passes 1 next := advance synced
    have none : (next.left.takeWhile fun b => charOf b != '"') = [] := by
      rcases Nat.lt_or_ge next.position next.text.utf8ByteSize with inside | behind
      · have quote := stops.resolve_right (Nat.not_le.mpr inside)
        rw [left_eq first.toSynced inside, List.takeWhile_cons, quote]
        rfl
      · rw [left_eq_nil behind]
        rfl
    rw [none]
    exact first
  | case2 c next goesOn ih =>
    obtain ⟨noQuote, inside⟩ := not_or.mp goesOn
    have first : c.Passes 1 next := advance synced
    rw [left_eq first.toSynced (Nat.not_le.mp inside), List.takeWhile_cons,
      if_pos (bne_iff_ne.mpr noQuote), List.length_cons, Nat.add_comm _ 1]
    exact first.trans (ih first.toSynced)

end Passes

/-! ## Between characters -/

/-- `c.At text before rest`: the cursor is in the text, between these characters of it. -/
structure At (c : Cursor) (text : String) (before rest : List Char) : Prop extends c.Synced where
  source : c.text = text
  split : text.toList = before ++ rest
  position : c.position = String.utf8Len before

namespace At

variable {c c' : Cursor} {text : String} {before inside rest : List Char} {a : Char}

theorem start (text : String) : (Cursor.start text).At text [] text.toList :=
  ⟨synced_start text, rfl, rfl, rfl⟩

theorem left_eq (placed : c.At text before rest) : c.left = bytesOf rest := by
  rw [left, placed.source, placed.split, placed.position, bytesOf_append, ← length_bytesOf,
    List.drop_left]

theorem lt_size (placed : c.At text before (a :: rest)) : c.position < text.utf8ByteSize := by
  rw [utf8ByteSize_of_split placed.split, placed.position, String.utf8Len_cons]
  have := a.utf8Size_pos
  omega

theorem position_le (placed : c.At text before rest) : c.position ≤ text.utf8ByteSize := by
  rw [utf8ByteSize_of_split placed.split, placed.position]
  exact Nat.le_add_right ..

theorem size_le (placed : c.At text before []) : text.utf8ByteSize ≤ c.position := by
  rw [utf8ByteSize_of_split placed.split, placed.position]
  exact Nat.le_refl _

/-- A cursor that passes over the bytes of some characters is between characters again. -/
theorem pass (inside : List Char) (placed : c.At text before (inside ++ rest))
    (passes : c.Passes (bytesOf inside).length c') : c'.At text (before ++ inside) rest := by
  refine ⟨passes.toSynced, passes.text.trans placed.source, ?_, ?_⟩
  · rw [placed.split, List.append_assoc]
  · rw [passes.position, placed.position, length_bytesOf, String.utf8Len_append]

theorem pass_char (placed : c.At text before (a :: rest)) (passes : c.Passes a.utf8Size c') :
    c'.At text (before ++ [a]) rest := by
  have length : (bytesOf [a]).length = a.utf8Size := by
    rw [length_bytesOf, String.utf8Len_cons, String.utf8Len_nil, Nat.zero_add]
  exact pass [a] placed (length ▸ passes)

theorem advance (placed : c.At text before (a :: rest)) (single : a.utf8Size = 1) :
    c.advance.At text (before ++ [a]) rest :=
  placed.pass_char (single ▸ Passes.advance placed.toSynced)

theorem skip (placed : c.At text before rest) (sort : CharSort) :
    (c.skip sort).At text (before ++ rest.takeWhile sort.test) (rest.dropWhile sort.test) := by
  have passes := Passes.skip placed.toSynced sort
  rw [placed.left_eq, sort.blind_test.takeWhile_bytesOf] at passes
  rw [← @List.takeWhile_append_dropWhile _ sort.test rest] at placed
  exact pass _ placed passes

/-- A string reaches to the next quote, or to the end of the text. -/
theorem toQuote (placed : c.At text before ('"' :: rest)) :
    c.toQuote.At text (before ++ ['"'] ++ rest.takeWhile (· != '"'))
      (rest.dropWhile (· != '"')) := by
  have passes := Passes.toQuote placed.toSynced
  rw [(placed.advance (by decide)).left_eq, blind_unquoted.takeWhile_bytesOf] at passes
  rw [List.append_assoc]
  refine pass (c := c) ('"' :: rest.takeWhile (· != '"')) ?_ ?_
  · rwa [List.cons_append, List.takeWhile_append_dropWhile]
  · rwa [bytesOf_cons, List.length_append]

/-- What is blind outside ASCII sees of the byte what it would see of the character. -/
theorem sees {α : Type} {f : Char → α} (placed : c.At text before (a :: rest)) (blind : Blind f) :
    f (charOf c.byte) = f a := by
  obtain ⟨b, bytes, encoded⟩ := List.exists_cons_of_ne_nil (@String.utf8EncodeChar_ne_nil a)
  have first : c.byte = b := by
    rw [byte_eq placed.toSynced, placed.left_eq, bytesOf_cons, encoded]
    rfl
  rw [first]
  exact blind.charOf_eq (encoded ▸ List.mem_cons_self ..)

/-- The slice between two cursors is the text of the characters between them. -/
theorem slice? (inside : List Char) (placed : c.At text before (inside ++ rest))
    (placed' : c'.At text (before ++ inside) rest) :
    (Span.mk c.position c'.position).slice? text = some (String.ofList inside) := by
  rw [placed.position, placed'.position]
  exact Span.slice?_of_split placed.split

theorem lt_position (inside : List Char) (placed : c.At text before (a :: inside ++ rest))
    (placed' : c'.At text (before ++ a :: inside) rest) : c.position < c'.position := by
  rw [placed.position, placed'.position, String.utf8Len_append, String.utf8Len_cons]
  have := a.utf8Size_pos
  omega

end At

/-- `c.Views text rest`: the cursor is in front of these characters of the text, with all of the
text before them behind it.  It may also have left the text. -/
inductive Views (c : Cursor) (text : String) : List Char → Prop
  | between {before rest : List Char} : c.At text before rest → Views c text rest
  | behind : c.Synced → c.text = text → text.utf8ByteSize ≤ c.position → Views c text []

end Cursor

/-! ## One call -/

/-- `call.Reads text c token rest`: the call, on the cursor `c`, yields the token and leaves the
cursor in front of `rest`.  All its slices can be taken, no character is missing, and unless the
token is the end of the text, the cursor has got on. -/
structure Call.Reads (call : Call) (text : String) (c : Cursor) (token : Token)
    (rest : List Char) : Prop where
  yields : call.token = some token
  slices : ∀ span ∈ call.slices, span.Within text
  found : call.replaced = false
  forward : token ≠ .eof → c.position < call.after.position
  views : call.after.Views text rest

theorem Call.Reads.of_le {call : Call} {text : String} {c c' : Cursor}
    {token : Token} {rest : List Char} (reads : call.Reads text c' token rest)
    (le : c.position ≤ c'.position) : call.Reads text c token rest :=
  { reads with forward := fun goesOn => Nat.lt_of_le_of_lt le (reads.forward goesOn) }

theorem Span.within_of_slice? {span : Span} {text part : String}
    (taken : span.slice? text = some part) : span.Within text :=
  slice?_isSome.mp (Option.isSome_iff_exists.mpr ⟨part, taken⟩)

namespace Cursor.At

variable {c c' : Cursor} {text : String} {before inside rest : List Char} {a : Char}

theorem bare (inside : List Char) (placed : c.At text before (a :: inside ++ rest))
    (placed' : c'.At text (before ++ a :: inside) rest) (token : Token) :
    (Cursor.bare token c').Reads text c token rest :=
  ⟨rfl, nofun, rfl, fun _ => lt_position _ placed placed', .between placed'⟩

theorem equals (placed : c.At text before (a :: rest)) (single : a.utf8Size = 1)
    (alone joined : Token) :
    (c.equals alone joined).Reads text c (Token.scanEquals alone joined rest).1
      (Token.scanEquals alone joined rest).2 := by
  have next := placed.advance single
  have peeked : c.peek = c.advance.byte := rfl
  unfold Cursor.equals
  rw [peeked]
  cases rest with
  | nil =>
    have zero : c.advance.byte = 0 := by
      rw [byte_eq next.toSynced, next.left_eq]
      rfl
    rw [zero, if_neg (by decide)]
    exact bare [] placed next alone
  | cons d rest =>
    have seen := next.sees (@blind_eq '=' (by decide))
    by_cases equals : d = '='
    · rw [if_pos (seen ▸ equals)]
      subst equals
      have last := next.advance (by decide)
      rw [List.append_assoc] at last
      exact bare ['='] placed last joined
    · rw [if_neg (seen ▸ equals), Token.scanEquals_alone fun first => equals (by cases first; rfl)]
      exact bare [] placed next alone

theorem run (placed : c.At text before (a :: rest)) (sort : CharSort) (inRun : sort.test a = true)
    (ofText : String → Token) :
    (c.run sort ofText).Reads text c (ofText (String.ofList (a :: rest.takeWhile sort.test)))
      (rest.dropWhile sort.test) := by
  have last := placed.skip sort
  rw [List.takeWhile_cons, List.dropWhile_cons, if_pos inRun, if_pos inRun] at last
  rw [← @List.takeWhile_append_dropWhile _ sort.test rest] at placed
  have taken := slice? (a :: rest.takeWhile sort.test) placed last
  refine ⟨?_, ?_, rfl, fun _ => lt_position _ placed last, .between last⟩
  · show (Span.slice? _ c.text).map ofText = _
    rw [placed.source, taken]
    rfl
  · exact List.forall_mem_singleton.mpr (Span.within_of_slice? taken)

/-- Behind a string there is the closing quote to be passed, or the text has ended and the cursor
leaves it. -/
theorem views_advance (placed : c.At text before (rest.dropWhile (· != '"'))) :
    c.advance.Views text ((rest.dropWhile (· != '"')).drop 1) := by
  cases ends : rest.dropWhile (· != '"') with
  | nil =>
    rw [ends] at placed
    have passes := Passes.advance placed.toSynced
    refine .behind passes.toSynced (passes.text.trans placed.source) ?_
    exact passes.position ▸ Nat.le_succ_of_le placed.size_le
  | cons d behind =>
    have quote : d = '"' := by
      have stops := Token.stops_dropWhile (· != '"') rest d (by rw [ends]; rfl)
      exact bne_eq_false_iff_eq.mp stops
    subst quote
    rw [ends] at placed
    exact .between (placed.advance (by decide))

theorem quoted (placed : c.At text before ('"' :: rest)) :
    c.quoted.Reads text c (.str (String.ofList (rest.takeWhile (· != '"'))))
      ((rest.dropWhile (· != '"')).drop 1) := by
  have first := placed.advance (by decide)
  have last := placed.toQuote
  have whole := @List.takeWhile_append_dropWhile _ (· != '"') rest
  rw [← whole] at first
  have taken := slice? _ first last
  -- The string begins behind its first quote and ends inside the text.
  have span : (⟨c.position + 1, min c.toQuote.position c.text.utf8ByteSize⟩ : Span) =
      ⟨c.advance.position, c.toQuote.position⟩ := by
    rw [Nat.min_eq_left (placed.source ▸ last.position_le), ← placed.ahead]
    rfl
  have further : c.position < c.toQuote.advance.position := by
    have passes := Passes.advance last.toSynced
    rw [← whole] at placed
    have := lt_position (a := '"') _ placed (List.append_assoc .. ▸ last)
    rw [passes.position]
    omega
  refine ⟨?_, ?_, rfl, fun _ => further, views_advance last⟩
  · show (Span.slice? ⟨c.position + 1, min c.toQuote.position c.text.utf8ByteSize⟩ c.text).map
      Token.str = _
    rw [span, placed.source, taken]
    rfl
  · refine List.forall_mem_singleton.mpr ?_
    rw [span]
    exact Span.within_of_slice? taken

theorem stray (placed : c.At text before (a :: rest)) :
    c.stray.Reads text c (.illegal a) rest := by
  have size : text.utf8ByteSize = String.utf8Len (before ++ a :: rest) := by
    rw [← placed.split, String.utf8Len_toList]
  have taken : (Span.mk c.position c.text.utf8ByteSize).slice? c.text =
      some (String.ofList (a :: rest)) := by
    rw [placed.source, placed.position, size]
    exact Span.slice?_of_split (by rw [placed.split, List.append_nil])
  have last : (c.advanceBy (a.utf8Size - 1)).advance.At text (before ++ [a]) rest := by
    have passes := Passes.advanceBy placed.toSynced (a.utf8Size - 1)
    have whole := passes.trans (.advance passes.toSynced)
    rw [Nat.sub_add_cancel a.utf8Size_pos] at whole
    exact placed.pass_char whole
  unfold Cursor.stray
  simp only [taken, String.toList_ofList, List.head?_cons, Option.getD_some]
  refine ⟨rfl, ?_, rfl, fun _ => lt_position [] placed last, .between last⟩
  exact List.forall_mem_singleton.mpr (placed.source ▸ Span.within_of_slice? taken)

theorem scan (placed : c.At text before (a :: rest)) :
    c.scan.Reads text c (Token.scan a rest).1 (Token.scan a rest).2 := by
  have equals := placed.sees (@blind_eq '=' (by decide))
  have bang := placed.sees (@blind_eq '!' (by decide))
  have quote := placed.sees (@blind_eq '"' (by decide))
  have symbol := placed.sees blind_symbol?
  have letter := placed.sees blind_isLetter
  have digit := placed.sees blind_isDigit
  have inside : ¬ (c.byte = 0 ∧ c.text.utf8ByteSize ≤ c.position) := fun ⟨_, behind⟩ =>
    Nat.not_le.mpr placed.lt_size (placed.source ▸ behind)
  unfold Cursor.scan Token.scan
  simp only [equals, bang, quote, symbol, letter, digit, if_neg inside]
  split
  · next same =>
    subst same
    exact placed.equals (by decide) .assign .eq
  · split
    · next same =>
      subst same
      exact placed.equals (by decide) .bang .notEq
    · split
      · next same =>
        subst same
        exact placed.quoted
      · cases found : Token.symbol? a with
        | some token =>
          obtain ⟨single, notLetter, notDigit⟩ := Token.ascii_of_symbol? found
          rw [notLetter, notDigit]
          exact bare [] placed (placed.advance single) token
        | none =>
          dsimp only
          split
          · next isLetter => exact placed.run .letter isLetter .ofWord
          · split
            · next isDigit => exact placed.run .digit isDigit .int
            · exact placed.stray

end Cursor.At

namespace Cursor

/-- Behind the text there is nothing but its end. -/
theorem scan_behind {c : Cursor} (synced : c.Synced) (behind : c.text.utf8ByteSize ≤ c.position) :
    c.scan = bare .eof c := by
  have zero : c.byte = 0 := by
    rw [synced.byte, byteAt_of_le behind]
  have noSymbol : Token.symbol? (charOf 0) = none := by decide
  unfold scan
  simp only [zero, noSymbol]
  rw [if_neg (by decide), if_neg (by decide), if_neg (by decide), if_pos ⟨trivial, behind⟩]

theorem reads_of_behind {c : Cursor} {text : String} (synced : c.Synced) (source : c.text = text)
    (behind : text.utf8ByteSize ≤ c.position) : c.scan.Reads text c .eof [] := by
  rw [scan_behind synced (source ▸ behind)]
  exact ⟨rfl, nofun, rfl, fun goesOn => absurd rfl goesOn, .behind synced source behind⟩

/-- One call: the cursor goes from text to text as the lexer does. -/
theorem Views.next {c : Cursor} {text : String} {rest : List Char} (views : c.Views text rest) :
    c.next.Reads text c (Token.next rest).1 (Token.next rest).2 := by
  cases views with
  | @between before rest placed =>
    have skipped := placed.skip .blank
    have le : c.position ≤ (c.skip .blank).position :=
      (Passes.skip placed.toSynced .blank).position ▸ Nat.le_add_right ..
    refine .of_le ?_ le
    show (c.skip .blank).scan.Reads text _ _ _
    unfold Token.next
    have test : CharSort.blank.test = isBlank := rfl
    rw [test] at skipped
    cases ends : rest.dropWhile isBlank with
    | nil =>
      rw [ends] at skipped
      exact reads_of_behind skipped.toSynced skipped.source skipped.size_le
    | cons a rest' =>
      rw [ends] at skipped
      exact skipped.scan
  | behind synced source behind =>
    have passes := Passes.skip synced .blank
    have le : c.position ≤ (c.skip .blank).position := passes.position ▸ Nat.le_add_right ..
    refine .of_le ?_ le
    exact reads_of_behind passes.toSynced (passes.text.trans source) (Nat.le_trans behind le)

/-! ## Call after call -/

/-- So many calls yield the tokens that the lexer yields, and leave the cursor in front of what it
leaves. -/
theorem Views.calls? {c : Cursor} {text : String} {rest : List Char} (views : c.Views text rest)
    (count : Nat) : ∃ last rest', c.calls? count = some (Token.calls count rest, last) ∧
      last.Views text rest' := by
  induction count generalizing c rest with
  | zero => exact ⟨c, rest, rfl, views⟩
  | succ count ih =>
    have reads := views.next
    obtain ⟨last, rest', called, lastViews⟩ := ih reads.views
    refine ⟨last, rest', ?_, lastViews⟩
    rw [Cursor.calls?, reads.yields]
    dsimp only
    rw [called]
    rfl

/-- The cursor is between two characters of the text or has come to its end.  It holds the byte that
is there, or zero where the text has ended, and it is about to read the byte behind that. -/
structure Sound (c : Cursor) (text : String) : Prop where
  source : c.text = text
  boundary : (⟨c.position⟩ : String.Pos.Raw).IsValid text ∨ text.utf8ByteSize ≤ c.position
  byte : ∀ inside : c.position < text.utf8ByteSize,
    c.byte = text.getUTF8Byte ⟨c.position⟩ inside
  zero : text.utf8ByteSize ≤ c.position → c.byte = 0
  ahead : c.ahead = c.position + 1

theorem Synced.sound {c : Cursor} {text : String} (synced : c.Synced) (source : c.text = text)
    (boundary : (⟨c.position⟩ : String.Pos.Raw).IsValid text ∨ text.utf8ByteSize ≤ c.position) :
    c.Sound text := by
  subst source
  refine ⟨rfl, boundary, fun inside => ?_, fun behind => ?_, synced.ahead⟩
  · rw [synced.byte, byteAt, getElem?_pos c.text.toByteArray c.position inside]
    rfl
  · rw [synced.byte, byteAt_of_le behind]

theorem Views.sound {c : Cursor} {text : String} {rest : List Char} (views : c.Views text rest) :
    c.Sound text := by
  cases views with
  | between placed =>
    refine placed.toSynced.sound placed.source (.inl ?_)
    rw [placed.position]
    exact isValid_of_split placed.split
  | behind synced source behind => exact synced.sound source (.inr behind)

end Cursor

/-- The call yields a token.  Its slices lie in the text and cut no character, and the character it
looks for is there. -/
structure Call.Safe (call : Call) (text : String) : Prop where
  token : call.token.isSome
  slices : ∀ span ∈ call.slices, span.Within text
  found : call.replaced = false

/-- However often it has been called, the lexer stands between two characters or behind the text.
Its next call cuts out whole characters only and moves on, unless the text has ended. -/
theorem cursor_stays_between_characters (text : String) (count : Nat) :
    ∃ c : Cursor, (Cursor.start text).calls? count = some (Token.calls count text.toList, c) ∧
      c.Sound text ∧ c.next.Safe text ∧
      (c.next.token ≠ some .eof → c.position < c.next.after.position) := by
  obtain ⟨c, rest, called, views⟩ := (Cursor.Views.between (.start text)).calls? count
  have reads := views.next
  refine ⟨c, called, views.sound, ⟨?_, reads.slices, reads.found⟩, fun goesOn => ?_⟩
  · rw [reads.yields]
    rfl
  · exact reads.forward fun ended => goesOn (reads.yields.trans (congrArg some ended))

/-- The text has six bytes.  Behind a string that lacks its closing quote the cursor has left it. -/
example : ((Cursor.start "é \"ü").calls? 2).map (fun called => called.2.position) = some 7 := by
  cbv

end TreeWalk
