import Mathlib.Data.List.Basic

/-!
# Byte offsets in a text

A text is kept in UTF-8, and a place in it is given by the number of bytes in front of it. Not every
number is such a place: it may lie behind the end of the text, or inside a character of several
bytes. `IsBoundary` says that it is one. Cutting a text anywhere else fails (`splitAtByte?`), and so
does a slice whose ends are no places or come in the wrong order.

* `splitAtByte?_eq_some_iff`: a text is cut at the offsets of its fronts and nowhere else.
* `isBoundary_iff`: so it is cut exactly at the boundaries between its characters.
* `slice?_append`: the slice between two fronts of a text is what one has behind the other.
-/

namespace Homonym.Text

/-- The number of bytes of a text. -/
def byteSize (text : List Char) : Nat :=
  (String.ofList text).utf8ByteSize

/-- The offset lies between two characters of a text, or at one of its ends. -/
def IsBoundary (text : List Char) (offset : Nat) : Prop :=
  (String.Pos.Raw.mk offset).IsValid (String.ofList text)

/-- Cuts a text at a byte offset. -/
def splitAtByte? : List Char → Nat → Option (List Char × List Char)
  | text, 0 => some ([], text)
  | [], _ + 1 => none
  | c :: rest, offset + 1 =>
    if c.utf8Size ≤ offset + 1 then
      (splitAtByte? rest (offset + 1 - c.utf8Size)).map fun (front, back) => (c :: front, back)
    else none

/-- The text behind an offset. -/
def sliceFrom? (text : List Char) (start : Nat) : Option (List Char) :=
  (splitAtByte? text start).map Prod.snd

/-- The text in front of an offset. -/
def sliceTo? (text : List Char) (stop : Nat) : Option (List Char) :=
  (splitAtByte? text stop).map Prod.fst

/-- The text between two offsets, which must not come in the wrong order. -/
def slice? (text : List Char) (start stop : Nat) : Option (List Char) :=
  if start ≤ stop then (sliceTo? text stop).bind (sliceFrom? · start) else none

@[simp]
theorem byteSize_nil : byteSize [] = 0 := rfl

@[simp]
theorem byteSize_append (front back : List Char) :
    byteSize (front ++ back) = byteSize front + byteSize back := by
  rw [byteSize, String.ofList_append, String.utf8ByteSize_append]
  rfl

@[simp]
theorem byteSize_cons (c : Char) (rest : List Char) :
    byteSize (c :: rest) = c.utf8Size + byteSize rest := by
  have hSingle : byteSize [c] = c.utf8Size := by
    rw [byteSize, ← String.singleton_eq_ofList, String.utf8ByteSize_singleton]
  rw [← List.singleton_append, byteSize_append, hSingle]

theorem byteSize_pos {text : List Char} (h : text ≠ []) : 0 < byteSize text := by
  cases text with
  | nil => exact absurd rfl h
  | cons c rest =>
    rw [byteSize_cons]
    exact Nat.add_pos_left c.utf8Size_pos _

/-- A text is cut at the offsets of its fronts and nowhere else. -/
theorem splitAtByte?_eq_some_iff {text front back : List Char} {offset : Nat} :
    splitAtByte? text offset = some (front, back) ↔
      text = front ++ back ∧ offset = byteSize front := by
  induction text, offset using splitAtByte?.induct generalizing front with
  | case1 text =>
    rw [splitAtByte?]
    constructor
    · intro h
      cases h
      exact ⟨rfl, rfl⟩
    · rintro ⟨rfl, hSize⟩
      have hFront : front = [] := by
        by_contra hSome
        exact absurd hSize (Nat.ne_of_lt (byteSize_pos hSome))
      rw [hFront, List.nil_append]
  | case2 offset =>
    rw [splitAtByte?]
    constructor
    · intro h
      cases h
    · rintro ⟨hText, hSize⟩
      rw [(List.append_eq_nil_iff.1 hText.symm).1] at hSize
      cases hSize
  | case3 c rest offset hFits ih =>
    rw [splitAtByte?, if_pos hFits]
    constructor
    · intro h
      obtain ⟨⟨inner, behind⟩, hSplit, hParts⟩ := Option.map_eq_some_iff.1 h
      cases hParts
      obtain ⟨hRest, hSize⟩ := ih.1 hSplit
      refine ⟨by rw [hRest, List.cons_append], ?_⟩
      rw [byteSize_cons]
      omega
    · rintro ⟨hText, hSize⟩
      cases front with
      | nil => cases hSize
      | cons d inner =>
        obtain ⟨rfl, hRest⟩ := List.cons.inj hText
        rw [byteSize_cons] at hSize
        rw [ih.2 ⟨hRest, by omega⟩]
        rfl
  | case4 c rest offset hFits =>
    rw [splitAtByte?, if_neg hFits]
    constructor
    · intro h
      cases h
    · rintro ⟨hText, hSize⟩
      cases front with
      | nil => cases hSize
      | cons d inner =>
        obtain ⟨rfl, -⟩ := List.cons.inj hText
        rw [byteSize_cons] at hSize
        omega

theorem splitAtByte?_append (front back : List Char) :
    splitAtByte? (front ++ back) (byteSize front) = some (front, back) :=
  splitAtByte?_eq_some_iff.2 ⟨rfl, rfl⟩

theorem isBoundary_append (front back : List Char) :
    IsBoundary (front ++ back) (byteSize front) :=
  String.Pos.Raw.isValid_iff_exists_append.2
    ⟨String.ofList front, String.ofList back, String.ofList_append, rfl⟩

/-- **A text is cut exactly at its boundaries.** -/
theorem isBoundary_iff {text : List Char} {offset : Nat} :
    IsBoundary text offset ↔ (splitAtByte? text offset).isSome := by
  rw [Option.isSome_iff_exists]
  constructor
  · intro h
    obtain ⟨front, back, hText, hOffset⟩ := String.Pos.Raw.isValid_iff_exists_append.1 h
    refine ⟨(front.toList, back.toList), splitAtByte?_eq_some_iff.2 ⟨?_, ?_⟩⟩
    · rw [← String.toList_append, ← hText, String.toList_ofList]
    · rw [byteSize, String.ofList_toList]
      exact congrArg String.Pos.Raw.byteIdx hOffset
  · rintro ⟨⟨front, back⟩, hSplit⟩
    obtain ⟨rfl, rfl⟩ := splitAtByte?_eq_some_iff.1 hSplit
    exact isBoundary_append front back

theorem sliceFrom?_append (front back : List Char) :
    sliceFrom? (front ++ back) (byteSize front) = some back := by
  rw [sliceFrom?, splitAtByte?_append]
  rfl

theorem sliceTo?_append (front back : List Char) :
    sliceTo? (front ++ back) (byteSize front) = some front := by
  rw [sliceTo?, splitAtByte?_append]
  rfl

theorem slice?_append (front piece back : List Char) :
    slice? (front ++ piece ++ back) (byteSize front) (byteSize (front ++ piece)) = some piece := by
  have hOrder : byteSize front ≤ byteSize (front ++ piece) := by
    rw [byteSize_append]
    exact Nat.le_add_right _ _
  rw [slice?, if_pos hOrder, sliceTo?_append, Option.bind_some, sliceFrom?_append]

end Homonym.Text
