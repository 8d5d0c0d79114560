/-!
# Bytes that need not be text

`decodeLossy` makes a text of any bytes. What cannot be read as UTF-8 is given as the replacement
character: one for each byte that begins no character, and one for a character that breaks off,
with as many of its bytes as could still be followed by the rest.
-/

namespace Homonym.Text

/-- The byte can stand behind the first of a character. -/
def isContinuation (b : UInt8) : Bool :=
  0x80 ≤ b && b ≤ 0xBF

/-- The byte can be the second of a character with a given first byte, one of three or four. -/
def canFollow (first second : UInt8) : Bool :=
  if first = 0xE0 then 0xA0 ≤ second && second ≤ 0xBF
  else if first = 0xED then 0x80 ≤ second && second ≤ 0x9F
  else if first = 0xF0 then 0x90 ≤ second && second ≤ 0xBF
  else if first = 0xF4 then 0x80 ≤ second && second ≤ 0x8F
  else isContinuation second

/-- How many bytes at the front of some that begin with no whole character are replaced at once. -/
def brokenLength : List UInt8 → Nat
  | first :: second :: rest =>
    if first < 0xE0 || 0xF4 < first || !canFollow first second then 1
    else if first < 0xF0 then 2
    else if rest.head?.any isContinuation then 3
    else 2
  | _ => 1

/-- The text of some bytes, of which the first few are passed over. -/
def decodeFrom : Nat → List UInt8 → List Char
  | _, [] => []
  | passed + 1, _ :: rest => decodeFrom passed rest
  | 0, first :: rest =>
    match (first :: rest).toByteArray.utf8DecodeChar? 0 with
    | some c => c :: decodeFrom (c.utf8Size - 1) rest
    | none => '\uFFFD' :: decodeFrom (brokenLength (first :: rest) - 1) rest

/-- The text of some bytes, with what cannot be read replaced. -/
def decodeLossy (bytes : List UInt8) : List Char :=
  decodeFrom 0 bytes

/-! ## Text is kept -/

theorem decodeFrom_eq_drop (passed : Nat) (bytes : List UInt8) :
    decodeFrom passed bytes = decodeFrom 0 (bytes.drop passed) := by
  induction bytes generalizing passed with
  | nil => simp [decodeFrom]
  | cons b rest ih =>
    cases passed with
    | zero => rfl
    | succ passed => rw [decodeFrom, ih, List.drop_succ_cons]

/-- Bytes that are the code of a text are read as this text. -/
theorem decodeLossy_encode (text : List Char) :
    decodeLossy (text.flatMap String.utf8EncodeChar) = text := by
  induction text with
  | nil => rfl
  | cons c text ih =>
    rw [List.flatMap_cons]
    generalize text.flatMap String.utf8EncodeChar = bytes at ih
    have hFirst : (String.utf8EncodeChar c ++ bytes).toByteArray.utf8DecodeChar? 0 = some c := by
      rw [List.toByteArray_append]
      exact ByteArray.utf8DecodeChar?_utf8EncodeChar_append
    have hLength : (String.utf8EncodeChar c).length = c.utf8Size := String.length_utf8EncodeChar c
    cases hCode : String.utf8EncodeChar c with
    | nil =>
      rw [hCode] at hLength
      exact absurd hLength.symm (Nat.ne_of_gt c.utf8Size_pos)
    | cons first more =>
      rw [hCode] at hFirst hLength
      have hMore : c.utf8Size - 1 = more.length := by
        rw [← hLength, List.length_cons, Nat.add_sub_cancel]
      rw [List.cons_append] at hFirst ⊢
      simp only [decodeLossy, decodeFrom, hFirst, hMore]
      rw [decodeFrom_eq_drop, List.drop_left]
      exact congrArg (c :: ·) ih

end Homonym.Text
