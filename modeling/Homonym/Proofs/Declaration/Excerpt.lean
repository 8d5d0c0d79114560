import Mathlib.Data.List.TakeWhile
import Homonym.Declaration.Occurrence
import Homonym.Proofs.Source.OnePass
import Homonym.Proofs.Text.Words

/-!
# Excerpts are settled

An excerpt is longer than `excerptLimit` where a line was cut, so taking an excerpt of it cuts it
once more. It is cut at the same place and marked by the same dots: an excerpt is its own first line
(`noBreak_clip`), has no blanks at its ends (`Trimmed.clip`) and is not changed by a second cut
(`clip_clip`). So an excerpt of an excerpt is that excerpt.

The first line itself is what stands before the first line feed. Whether a carriage return belongs
to the line end makes no difference, since it is a blank (`trim_lineOf`).
-/

namespace Homonym

namespace Text

/-! ## Texts without blanks at their ends -/

/-- Neither the first character nor the last is blank. -/
def Trimmed (text : List Char) : Prop :=
  Unblank text ∧ Unblank text.reverse

theorem trimEnd_of_unblank {text : List Char} (h : Unblank text.reverse) : trimEnd text = text := by
  have hReverse : trimStart text.reverse = text.reverse := trimStart_of_unblank h
  rw [trimEnd, ← trimStart, hReverse, List.reverse_reverse]

theorem Trimmed.trim_eq {text : List Char} (h : Trimmed text) : trim text = text := by
  rw [trim, trimStart_of_unblank h.1, trimEnd_of_unblank h.2]

/-- Cutting at the end leaves the first character, if it leaves any. -/
theorem Unblank.front {front text : List Char} (h : Unblank text) (hFront : front <+: text) :
    Unblank front := by
  obtain ⟨back, rfl⟩ := hFront
  intro c hc
  exact h c (by rw [List.head?_append, hc]; rfl)

theorem trimmed_trim (text : List Char) : Trimmed (trim text) := by
  refine ⟨(unblank_trimStart text).front (trimEnd_prefix_self _), ?_⟩
  rw [trim, trimEnd, List.reverse_reverse]
  exact unblank_trimStart _

/-- Blanks at the end of a text are trimmed off, whatever they are. -/
theorem trim_append_blanks (text : List Char) {blanks : List Char} (h : AreBlank blanks) :
    trim (text ++ blanks) = trim text := by
  have hAll : blanks.all isBlank = true := List.all_eq_true.2 h
  rw [trim, trimStart, List.dropWhile_append]
  split
  · next hNil =>
    have hText : trimStart text = [] := List.isEmpty_iff.1 hNil
    have hBlanks : blanks.dropWhile isBlank = [] := trimStart_eq_nil_iff.2 hAll
    rw [hBlanks, trim, hText]
  · rw [trimEnd_append, if_pos hAll]
    rfl

end Text

open Text

/-! ## First lines -/

/-- The first line without blanks at its ends is what stands before the first line feed, without
blanks at its ends. -/
theorem trim_lineOf (text : List Char) :
    trim (Source.lineOf text) = trim (text.takeWhile (· ≠ '\n')) := by
  have hPass : ∀ {line : List Char}, '\n' ∉ line → ∀ c ∈ line, decide (c ≠ '\n') = true :=
    fun hLine c hc => decide_eq_true fun hEq => hLine (hEq ▸ hc)
  by_cases hBreak : '\n' ∈ text
  · obtain ⟨line, mark, rest, rfl, hLine, hMark⟩ := exists_lineEnd hBreak
    rw [Source.lineOf_append_lineEnd hLine hMark, List.append_assoc,
      List.takeWhile_append_of_pos (hPass hLine)]
    -- What the line end adds to the line is a carriage return or nothing.
    rcases hMark with rfl | ⟨rfl, -⟩
    · have hReturn : AreBlank ['\r'] := by decide
      exact (trim_append_blanks line hReturn).symm
    · simp
  · have hTake : text.takeWhile (· ≠ '\n') = text :=
      List.takeWhile_eq_self_iff.2 (hPass hBreak)
    rw [Source.lineOf_of_noBreak hBreak, hTake]

/-! ## Cut lines -/

theorem clip_of_le {line : List Char} (h : line.length ≤ excerptLimit) : clip line = line :=
  if_neg (Nat.not_lt.2 h)

theorem clip_of_lt {line : List Char} (h : excerptLimit < line.length) :
    clip line = line.take excerptLimit ++ ['.', '.', '.'] :=
  if_pos h

/-- A cut line is longer than an excerpt may be. Cutting it again takes off the three dots and puts
them back. -/
theorem clip_clip (line : List Char) : clip (clip line) = clip line := by
  by_cases hLong : excerptLimit < line.length
  · have hKept : (line.take excerptLimit).length = excerptLimit := by
      rw [List.length_take]
      omega
    have hAgain : excerptLimit < (line.take excerptLimit ++ ['.', '.', '.']).length := by
      rw [List.length_append, hKept]
      exact Nat.lt_add_of_pos_right (by decide)
    rw [clip_of_lt hLong, clip_of_lt hAgain, List.take_append_of_le_length hKept.ge, List.take_take,
      Nat.min_self]
  · rw [clip_of_le (Nat.not_lt.1 hLong), clip_of_le (Nat.not_lt.1 hLong)]

theorem length_clip_le (line : List Char) : (clip line).length ≤ excerptLimit + 3 := by
  by_cases hLong : excerptLimit < line.length
  · rw [clip_of_lt hLong, List.length_append, List.length_take]
    exact Nat.add_le_add_right (Nat.min_le_left _ _) 3
  · rw [clip_of_le (Nat.not_lt.1 hLong)]
    omega

theorem noBreak_clip {line : List Char} (h : '\n' ∉ line) : '\n' ∉ clip line := by
  by_cases hLong : excerptLimit < line.length
  · have hKept : '\n' ∉ line.take excerptLimit := fun hMem => h (List.mem_of_mem_take hMem)
    rw [clip_of_lt hLong, List.mem_append]
    exact not_or.2 ⟨hKept, by decide⟩
  · rwa [clip_of_le (Nat.not_lt.1 hLong)]

theorem Text.Trimmed.clip {line : List Char} (h : Trimmed line) : Trimmed (clip line) := by
  by_cases hLong : excerptLimit < line.length
  · rw [clip_of_lt hLong]
    refine ⟨?_, ?_⟩
    · have hFront : Unblank (line.take excerptLimit) := h.1.front (List.take_prefix _ _)
      intro c hc
      rw [List.head?_append] at hc
      cases hHead : (line.take excerptLimit).head? with
      | none =>
        rw [hHead] at hc
        cases hc
        rfl
      | some d =>
        rw [hHead] at hc
        cases hc
        exact hFront c hHead
    · rw [List.reverse_append]
      rintro c ⟨⟩
      rfl
  · rwa [clip_of_le (Nat.not_lt.1 hLong)]

/-! ## Excerpts -/

theorem toList_excerpt (text : String) :
    (excerpt text).toList = clip (trim (Source.lineOf text.toList)) := by
  rw [excerpt, String.toList_ofList, excerptChars, lineExcerpt_eq, Source.lineOf]

theorem noBreak_trim {text : List Char} (h : '\n' ∉ text) : '\n' ∉ trim text := fun hMem =>
  h ((trimStart_suffix text).subset ((trimEnd_prefix_self _).subset hMem))

/-- **Excerpts are settled.** The excerpt of an excerpt is the same. An excerpt is a single line
without blanks at its ends, of at most 103 characters: the first line of the text without blanks at
its ends if that has at most 100 characters, and otherwise its first 100 characters and three
dots. -/
theorem excerpt_settled (text : String) :
    let first := trim ((lines text.toList).headD [])
    let shown := excerpt text
    excerpt shown = shown ∧
      '\n' ∉ shown.toList ∧
      (∀ c ∈ shown.toList.head?, isBlank c = false) ∧
      (∀ c ∈ shown.toList.getLast?, isBlank c = false) ∧
      shown.length ≤ 103 ∧
      first = trim (text.toList.takeWhile (· ≠ '\n')) ∧
      shown = if first.length ≤ 100 then String.ofList first
        else String.ofList (first.take 100) ++ "..." := by
  intro first shown
  have hShown : shown.toList = clip first := toList_excerpt text
  have hTrimmed : Trimmed (clip first) := (trimmed_trim _).clip
  have hBreak : '\n' ∉ clip first := noBreak_clip (noBreak_trim (Source.prefix_lineOf _).2)
  refine ⟨?_, ?_, ?_, ?_, ?_, trim_lineOf _, ?_⟩
  · rw [← String.toList_inj, toList_excerpt, hShown, Source.lineOf_of_noBreak hBreak,
      hTrimmed.trim_eq, clip_clip]
  · rw [hShown]
    exact hBreak
  · rw [hShown]
    exact hTrimmed.1
  · rw [hShown, ← List.head?_reverse]
    exact hTrimmed.2
  · rw [← String.length_toList, hShown]
    exact length_clip_le first
  · rw [← String.toList_inj, hShown]
    split
    · next hShort => rw [clip_of_le hShort, String.toList_ofList]
    · next hLong =>
      rw [clip_of_lt (Nat.lt_of_not_le hLong), String.toList_append, String.toList_ofList]
      rfl

/-- A carriage return inside a line is kept, one at its end is not. -/
example : excerpt " a\rb \r\nc" = "a\rb" := by decide

end Homonym
