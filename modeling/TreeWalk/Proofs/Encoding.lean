import Mathlib.Data.String.Basic
import TreeWalk.Token.Cursor

/-!
# Characters and their bytes

A character of ASCII is one byte, its own code, and every byte of any other character is outside
ASCII.  So whatever only tells characters of ASCII from each other and from the rest may as well be
asked of bytes.

Results:
1. a byte of a character is that character, or neither is one of ASCII (`charOf_of_mem`);
2. a run of bytes of which such a test holds is a run of characters of which it holds
   (`Blind.takeWhile_bytesOf`);
3. what lies between two places in a list of characters can be taken out of the text as a slice
   (`Span.within_of_split`, `Span.slice?_of_split`).
-/

namespace TreeWalk

/-! ## Bytes -/

/-- The bytes of characters, in order. -/
def bytesOf (chars : List Char) : List UInt8 :=
  chars.flatMap String.utf8EncodeChar

theorem bytesOf_cons (c : Char) (chars : List Char) :
    bytesOf (c :: chars) = String.utf8EncodeChar c ++ bytesOf chars :=
  rfl

theorem bytesOf_append (before after : List Char) :
    bytesOf (before ++ after) = bytesOf before ++ bytesOf after :=
  List.flatMap_append

theorem length_bytesOf (chars : List Char) : (bytesOf chars).length = String.utf8Len chars := by
  induction chars with
  | nil => rfl
  | cons c chars ih =>
    rw [bytesOf_cons, List.length_append, ih, String.length_utf8EncodeChar, String.utf8Len_cons,
      Nat.add_comm]

theorem bytesOf_toList (text : String) : bytesOf text.toList = text.toByteArray.data.toList := by
  rw [← String.utf8Encode_toList, List.utf8Encode, List.data_toByteArray, List.toList_toArray]
  rfl

theorem byteAt_eq (text : String) (position : Nat) :
    byteAt text position = ((bytesOf text.toList).drop position).headD 0 := by
  have same : text.toByteArray.data.toList[position]? = text.toByteArray[position]? :=
    Array.getElem?_toList
  rw [bytesOf_toList, List.headD_eq_head?_getD, List.head?_drop, same]
  rfl

/-! ## ASCII -/

theorem toNat_charOf (b : UInt8) : (charOf b).toNat = b.toNat := by
  have valid : b.toNat.isValidChar := .inl (Nat.lt_trans b.toNat_lt (by decide))
  rw [charOf, Char.ofNat, dif_pos valid]
  rfl

theorem charOf_of_mem {c : Char} {b : UInt8} (member : b ∈ String.utf8EncodeChar c) :
    charOf b = c ∨ 127 < (charOf b).toNat ∧ 127 < c.toNat := by
  rw [toNat_charOf]
  simp only [String.utf8EncodeChar, Char.toNat_val] at member
  split at member
  · next ascii =>
    left
    rw [List.mem_singleton.mp member, charOf, UInt8.toNat_ofNat', Nat.mod_eq_of_lt (by omega),
      Char.ofNat_toNat]
  · -- The leading byte is at least 192 and the others are at least 128.
    right
    repeat' split at member
    all_goals
      simp only [List.mem_cons, List.not_mem_nil, or_false] at member
      refine ⟨?_, by omega⟩
    · rcases member with rfl | rfl <;> rw [UInt8.toNat_ofNat'] <;> omega
    · rcases member with rfl | rfl | rfl <;> rw [UInt8.toNat_ofNat'] <;> omega
    · rcases member with rfl | rfl | rfl | rfl <;> rw [UInt8.toNat_ofNat'] <;> omega

/-- What characters outside ASCII are makes no difference. -/
def Blind {α : Type} (f : Char → α) : Prop :=
  ∀ c d : Char, 127 < c.toNat → 127 < d.toNat → f c = f d

namespace Blind

variable {α : Type} {f : Char → α} {p : Char → Bool}

/-- Any byte of a character may be asked instead of it. -/
theorem charOf_eq (blind : Blind f) {c : Char} {b : UInt8} (member : b ∈ String.utf8EncodeChar c) :
    f (charOf b) = f c := by
  rcases charOf_of_mem member with same | ⟨high, high'⟩
  · rw [same]
  · exact blind _ _ high high'

theorem takeWhile_bytesOf (blind : Blind p) (chars : List Char) :
    (bytesOf chars).takeWhile (fun b => p (charOf b)) = bytesOf (chars.takeWhile p) := by
  induction chars with
  | nil => rfl
  | cons c chars ih =>
    rw [bytesOf_cons, List.takeWhile_cons]
    split
    · next holds =>
      have all : ∀ b ∈ String.utf8EncodeChar c, p (charOf b) = true := fun b member =>
        (blind.charOf_eq member).trans holds
      rw [List.takeWhile_append_of_pos all, ih, bytesOf_cons]
    · next fails =>
      obtain ⟨b, bytes, encoded⟩ := List.exists_cons_of_ne_nil (@String.utf8EncodeChar_ne_nil c)
      have first := blind.charOf_eq (encoded ▸ List.mem_cons_self ..)
      rw [encoded, List.cons_append, List.takeWhile_cons, if_neg (first ▸ fails)]
      rfl

end Blind

/-- A test that no character outside ASCII passes. -/
theorem blind_of_fails {p : Char → Bool} (fails : ∀ c : Char, p c = true → c.toNat ≤ 127) :
    Blind p := by
  have high {c : Char} (high : 127 < c.toNat) : p c = false :=
    Bool.eq_false_iff.mpr fun holds => Nat.not_le.mpr high (fails c holds)
  exact fun c d isHigh isHigh' => (high isHigh).trans (high isHigh').symm

theorem blind_isBlank : Blind isBlank := by
  refine blind_of_fails fun c blank => ?_
  simp only [isBlank, Bool.or_eq_true, beq_iff_eq] at blank
  rcases blank with (((rfl | rfl) | rfl) | rfl) | rfl <;> decide

theorem blind_isDigit : Blind Char.isDigit := by
  refine blind_of_fails fun c digit => ?_
  have most : c.val ≤ 57 := of_decide_eq_true (Bool.and_eq_true_iff.mp digit).2
  exact Nat.le_trans (UInt32.le_iff_toNat_le.mp most) (by decide)

theorem blind_isLetter : Blind isLetter := by
  refine blind_of_fails fun c letter => ?_
  rcases Bool.or_eq_true_iff.mp letter with alpha | underscore
  · rcases Bool.or_eq_true_iff.mp alpha with upper | lower
    · have most : c.val ≤ 90 := (of_decide_eq_true upper : _ ∧ _).2
      exact Nat.le_trans (UInt32.le_iff_toNat_le.mp most) (by decide)
    · have most : c.val ≤ 122 := of_decide_eq_true (Bool.and_eq_true_iff.mp lower).2
      exact Nat.le_trans (UInt32.le_iff_toNat_le.mp most) (by decide)
  · rw [beq_iff_eq.mp underscore]
    decide

theorem CharSort.blind_test (sort : CharSort) : Blind sort.test := by
  cases sort with
  | blank => exact blind_isBlank
  | letter => exact blind_isLetter
  | digit => exact blind_isDigit

theorem blind_eq {x : Char} (ascii : x.toNat ≤ 127) : Blind (· = x) := by
  have high {c : Char} (high : 127 < c.toNat) : (c = x) = False :=
    eq_false fun same => Nat.not_lt.mpr ascii (same ▸ high)
  exact fun c d isHigh isHigh' => (high isHigh).trans (high isHigh').symm

theorem blind_unquoted : Blind (· != '"') := by
  have quote : Blind (· == '"') := blind_of_fails fun c same => by
    rw [beq_iff_eq.mp same]
    decide
  exact fun c d high high' => congrArg not (quote c d high high')

theorem blind_symbol? : Blind Token.symbol? := by
  have none {c : Char} (high : 127 < c.toNat) : Token.symbol? c = none := by
    unfold Token.symbol?
    split
    case h_13 => rfl
    all_goals exact absurd high (by decide)
  exact fun c d high high' => (none high).trans (none high').symm

theorem Token.ascii_of_symbol? {c : Char} {token : Token} (found : symbol? c = some token) :
    c.utf8Size = 1 ∧ isLetter c = false ∧ c.isDigit = false := by
  unfold symbol? at found
  split at found <;> cases found <;> decide

/-! ## Places in a text -/

section

variable {text : String} {before inside after : List Char}

theorem isValid_of_split (split : text.toList = before ++ after) :
    (⟨String.utf8Len before⟩ : String.Pos.Raw).IsValid text := by
  refine String.Pos.Raw.isValid_iff_exists_append.mpr
    ⟨String.ofList before, String.ofList after, ?_, ?_⟩
  · rw [← String.ofList_append, ← split, String.ofList_toList]
  · rw [String.Pos.Raw.ext_iff, String.byteIdx_rawEndPos, String.utf8ByteSize_ofList]

theorem utf8ByteSize_of_split (split : text.toList = before ++ after) :
    text.utf8ByteSize = String.utf8Len before + String.utf8Len after := by
  rw [← String.utf8Len_toList, split, String.utf8Len_append]

theorem Span.within_of_split (split : text.toList = before ++ (inside ++ after)) :
    Span.Within ⟨String.utf8Len before, String.utf8Len (before ++ inside)⟩ text := by
  have split' : text.toList = (before ++ inside) ++ after := split.trans (List.append_assoc ..).symm
  refine ⟨?_, ?_, isValid_of_split split, isValid_of_split split'⟩
  · exact String.utf8Len_append .. ▸ Nat.le_add_right ..
  · exact utf8ByteSize_of_split split' ▸ Nat.le_add_right ..

/-- The slice between two places is the text of the characters between them. -/
theorem Span.slice?_of_split (split : text.toList = before ++ (inside ++ after)) :
    Span.slice? ⟨String.utf8Len before, String.utf8Len (before ++ inside)⟩ text =
      some (String.ofList inside) := by
  have extracted := String.extract_of_valid before inside after
  rw [slice?, if_pos (within_of_split split), String.utf8Len_append]
  rw [List.append_assoc, ← split, String.ofList_toList] at extracted
  exact congrArg some extracted

end

end TreeWalk
