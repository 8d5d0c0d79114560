import Homonym.Proofs.Json.Tokens
import Homonym.Proofs.Toml.Strings
import Homonym.Toml.Reader

/-!
# Values of TOML read back

`Written text v` says that a text at the end of a line is read as a value. It holds of truth values,
of integers of 64 bits, and of lists of texts in each of their three layouts (`written_bool`,
`written_int`, `written_texts`).

An integer needs some care, since the reader first tries whether it is a date, a time or a real
number: all of these ask for a mark behind some digits, and there is none in front of the line end.
-/

namespace Homonym.Toml

open Text

/-- At the end of a line, the text is read as a value. -/
structure Written (text : List Char) (v : Value) : Prop where
  /-- The text does not begin with a blank. -/
  head : ∃ c more, text = c :: more ∧ isBlank c = false
  read : ∀ bound rest, text.length ≤ bound →
    value? bound depthLimit (text ++ '\n' :: rest) = some (v, '\n' :: rest)

/-! ## Scalars -/

/-- The character does not begin an array or a table in braces. -/
theorem value?_scalar {c : Char} (hArray : c ≠ '[') (hTable : c ≠ '\x7b') (fuel depth : Nat)
    (rest : List Char) : value? (fuel + 1) depth (c :: rest) = scalar? (c :: rest) := by
  rw [value?]
  · rintro more hMore
    exact hArray (List.cons.inj hMore).1
  · rintro more hMore
    exact hTable (List.cons.inj hMore).1

theorem written_bool (b : Bool) : Written (bool b).toList (.bool b) := by
  cases b with
  | false =>
    refine ⟨⟨'f', ['a', 'l', 's', 'e'], by decide, by decide⟩, fun bound rest hBound => ?_⟩
    obtain ⟨fuel, rfl⟩ : ∃ fuel, bound = fuel + 1 := ⟨bound - 1, by simp [bool] at hBound; omega⟩
    have hText : (bool false).toList = ['f', 'a', 'l', 's', 'e'] := by decide
    rw [hText]
    exact value?_scalar (by decide) (by decide) _ _ _
  | true =>
    refine ⟨⟨'t', ['r', 'u', 'e'], by decide, by decide⟩, fun bound rest hBound => ?_⟩
    obtain ⟨fuel, rfl⟩ : ∃ fuel, bound = fuel + 1 := ⟨bound - 1, by simp [bool] at hBound; omega⟩
    have hText : (bool true).toList = ['t', 'r', 'u', 'e'] := by decide
    rw [hText]
    exact value?_scalar (by decide) (by decide) _ _ _

theorem exists_textChars (text : List Char) :
    ∃ mark more, textChars text = mark :: more ∧ (mark = '"' ∨ mark = '\'') := by
  simp only [textChars, tripled]
  repeat' split
  all_goals simp

theorem value?_textChars (fuel depth : Nat) (text : List Char) {rest : List Char}
    (hRest : EndsString rest) :
    value? (fuel + 1) depth (textChars text ++ rest) = some (.str (String.ofList text), rest) := by
  obtain ⟨mark, more, hText, hMark⟩ := exists_textChars text
  have hString := string?_textChars text hRest
  rw [hText, List.cons_append] at hString ⊢
  rw [value?_scalar, scalar?, hString]
  · rcases hMark with rfl | rfl <;> decide
  · rcases hMark with rfl | rfl <;> decide

/-! ## Lists of texts -/

theorem skipTrivia_stop {c : Char} (hBlank : isBlank c = false) (hFeed : c ≠ '\n')
    (hReturn : c ≠ '\r') (hComment : c ≠ '#') (rest : List Char) :
    skipTrivia (c :: rest) = c :: rest := by
  rw [skipTrivia, skipTriviaFrom]
  · simp [hBlank, hFeed, hComment]
  · intro more hMore _
    exact hReturn hMore

theorem skipTrivia_mark {mark : Char} (hMark : mark = '"' ∨ mark = '\'') (rest : List Char) :
    skipTrivia (mark :: rest) = mark :: rest := by
  rcases hMark with rfl | rfl <;> exact skipTrivia_stop (by decide) (by decide) (by decide)
    (by decide) rest

/-- The elements of a list, one on each line. -/
def elementLines (all : List String) : List Char :=
  all.flatMap fun s => "    ".toList ++ textChars s.toList ++ [',', '\n']

theorem elements?_elementLines {fuel depth : Nat} (all : List String)
    (hFuel : all.length + 1 ≤ fuel) (rest : List Char) :
    elements? fuel depth (skipTrivia ('\n' :: (elementLines all ++ ']' :: rest))) =
      some (all.map .str, rest) := by
  induction all generalizing fuel with
  | nil =>
    obtain ⟨fuel, rfl⟩ : ∃ n, fuel = n + 1 := ⟨fuel - 1, by omega⟩
    rfl
  | cons s all ih =>
    obtain ⟨fuel, rfl⟩ : ∃ n, fuel = n + 2 := ⟨fuel - 2, by simp at hFuel; omega⟩
    obtain ⟨mark, more, hText, hMark⟩ := exists_textChars s.toList
    have hLine : skipTrivia ('\n' :: (elementLines (s :: all) ++ ']' :: rest)) =
        textChars s.toList ++ ',' :: '\n' :: (elementLines all ++ ']' :: rest) := by
      have hSkip := skipTrivia_mark hMark
        (more ++ ',' :: '\n' :: (elementLines all ++ ']' :: rest))
      rw [← List.cons_append, ← hText] at hSkip
      rw [← hSkip]
      simp only [elementLines, List.flatMap_cons, List.append_assoc, List.cons_append,
        List.nil_append]
      rfl
    have hEnds : EndsString (',' :: '\n' :: (elementLines all ++ ']' :: rest)) :=
      ⟨by simp, by simp⟩
    rw [hLine, elements?, value?_textChars fuel depth s.toList hEnds]
    · simp only [skipTrivia_stop (c := ',') (by decide) (by decide) (by decide) (by decide)]
      rw [ih (by simp at hFuel ⊢; omega)]
      simp
    · intro after hAfter
      rw [hText] at hAfter
      rcases hMark with rfl | rfl <;> cases hAfter

theorem length_le_elementLines (all : List String) : all.length ≤ (elementLines all).length := by
  induction all with
  | nil => simp
  | cons s all ih =>
    have hLine : elementLines (s :: all) =
        ("    ".toList ++ textChars s.toList ++ [',', '\n']) ++ elementLines all := by
      simp [elementLines]
    rw [hLine, List.length_append, List.length_append]
    simp only [List.length_cons, List.length_nil]
    omega

theorem written_single (s : String) : Written (texts [s]).toList (.arr [.str s]) := by
  have hText : (texts [s]).toList = '[' :: (textChars s.toList ++ [']']) := by
    simp [texts, text]
  rw [hText]
  refine ⟨⟨'[', _, rfl, by decide⟩, fun bound rest hBound => ?_⟩
  obtain ⟨mark, more, hChars, hMark⟩ := exists_textChars s.toList
  obtain ⟨fuel, rfl⟩ : ∃ fuel, bound = fuel + 3 :=
    ⟨bound - 3, by rw [hChars] at hBound; simp at hBound; omega⟩
  have hEnds : EndsString (']' :: '\n' :: rest) := ⟨by simp, by simp⟩
  have hSkip : skipTrivia (textChars s.toList ++ ']' :: '\n' :: rest) =
      textChars s.toList ++ ']' :: '\n' :: rest := by
    rw [hChars, List.cons_append, skipTrivia_mark hMark]
  rw [List.cons_append, List.append_assoc, List.singleton_append, value?, hSkip,
    if_neg (by decide), elements?, value?_textChars _ _ s.toList hEnds]
  · rw [String.ofList_toList]
    rfl
  · intro after hAfter
    rw [hChars] at hAfter
    rcases hMark with rfl | rfl <;> cases hAfter

/-- A list with several elements has one on each line. The bound is enough for them, since every
element has characters of its own. -/
theorem written_several (s t : String) (more : List String) :
    Written (texts (s :: t :: more)).toList (.arr ((s :: t :: more).map .str)) := by
  have hText : (texts (s :: t :: more)).toList =
      '[' :: '\n' :: (elementLines (s :: t :: more) ++ [']']) := by
    simp [texts, text, elementLines, String.toList_join, List.flatMap_map]
  rw [hText]
  refine ⟨⟨'[', _, rfl, by decide⟩, fun bound rest hBound => ?_⟩
  have hLong := length_le_elementLines (s :: t :: more)
  obtain ⟨fuel, rfl⟩ : ∃ fuel, bound = fuel + 1 :=
    ⟨bound - 1, by simp at hBound; omega⟩
  have hFuel : (s :: t :: more).length + 1 ≤ fuel := by
    simp only [List.length_cons, List.length_append, List.length_nil] at hBound hLong ⊢
    omega
  rw [List.cons_append, List.cons_append, List.append_assoc, List.singleton_append, value?,
    if_neg (by decide), elements?_elementLines _ hFuel]
  rfl

theorem written_texts (all : List String) : Written (texts all).toList (.arr (all.map .str)) := by
  match all with
  | [] =>
    have hText : (texts []).toList = ['[', ']'] := by decide
    rw [hText]
    refine ⟨⟨'[', [']'], rfl, by decide⟩, fun bound rest hBound => ?_⟩
    obtain ⟨fuel, rfl⟩ : ∃ fuel, bound = fuel + 2 := ⟨bound - 2, by simp at hBound; omega⟩
    rfl
  | [s] => exact written_single s
  | s :: t :: more => exact written_several s t more

/-! ## Integers -/

section Digits

variable {ds : List Char} (hDigits : ∀ c ∈ ds, c.isDigit = true) (rest : List Char)
include hDigits

theorem moreDigits_append :
    moreDigits Char.isDigit (ds ++ '\n' :: rest) = (ds, '\n' :: rest) := by
  induction ds with
  | nil => rfl
  | cons c ds ih =>
    have hDigit := hDigits c (by simp)
    rw [List.cons_append, moreDigits, if_pos hDigit, ih fun d hd => hDigits d (by simp [hd])]
    rintro d more rfl -
    cases hDigit

theorem digits?_append (hSome : ds ≠ []) :
    digits? Char.isDigit (ds ++ '\n' :: rest) = some (ds, '\n' :: rest) := by
  obtain ⟨c, more, rfl⟩ := List.exists_cons_of_ne_nil hSome
  rw [List.cons_append, digits?, if_pos (hDigits c (by simp)),
    moreDigits_append (fun d hd => hDigits d (by simp [hd]))]

/-- Behind as many digits as one likes there is a further one or the line end. -/
theorem after?_digits {count : Nat} {mark : Char} (hMark : mark.isDigit = false)
    (hFeed : mark ≠ '\n') (hTaken : ∀ c ∈ (ds ++ '\n' :: rest).take count, c.isDigit = true) :
    after? [mark] ((ds ++ '\n' :: rest).drop count) = none := by
  have hWithin : count ≤ ds.length := by
    refine Nat.le_of_not_lt fun hBeyond => ?_
    have hMem : '\n' ∈ (ds ++ '\n' :: rest).take count := by
      rw [List.take_append, List.take_of_length_le (by omega)]
      obtain ⟨more, hMore⟩ : ∃ more, count - ds.length = more + 1 :=
        ⟨count - ds.length - 1, by omega⟩
      simp [hMore]
    cases hTaken '\n' hMem
  rw [List.drop_append_of_le_length hWithin]
  cases hDrop : ds.drop count with
  | nil => simp [after?, hFeed]
  | cons c more =>
    have hDigit : c.isDigit = true := hDigits c (List.mem_of_mem_drop (hDrop ▸ List.mem_cons_self))
    have hOther : mark ≠ c := by
      rintro rfl
      rw [hMark] at hDigit
      cases hDigit
    simp [after?, hOther]

end Digits

theorem field?_eq_some {count low high n : Nat} {text rest : List Char}
    (hField : field? count low high text = some (n, rest)) :
    (∀ c ∈ text.take count, c.isDigit = true) ∧ rest = text.drop count := by
  simp only [field?] at hField
  split at hField
  · rename_i hFits
    cases hField
    exact ⟨List.all_eq_true.1 hFits.2.1, rfl⟩
  · cases hField

/-- No date or time is read where none of their marks follows the digits. -/
theorem dateTime?_eq_none {text : List Char}
    (hDate : (∀ c ∈ text.take 4, c.isDigit = true) → after? ['-'] (text.drop 4) = none)
    (hTime : (∀ c ∈ text.take 2, c.isDigit = true) → after? [':'] (text.drop 2) = none) :
    dateTime? text = none := by
  have hNoDate : date? text = none := by
    simp only [date?]
    cases hField : field? 4 0 9999 text with
    | none => rfl
    | some found =>
      obtain ⟨hDigits, hRest⟩ := field?_eq_some hField
      simp [hRest, hDate hDigits]
  have hNoTime : time? text = none := by
    simp only [time?]
    cases hField : field? 2 0 23 text with
    | none => rfl
    | some found =>
      obtain ⟨hDigits, hRest⟩ := field?_eq_some hField
      simp [hRest, hTime hDigits]
  rw [dateTime?, hNoDate, hNoTime]
  rfl

theorem wholeDigits?_toDigits (n : Nat) (rest : List Char) :
    wholeDigits? (Nat.toDigits 10 n ++ '\n' :: rest) =
      some (Nat.toDigits 10 n, '\n' :: rest) := by
  rcases Nat.eq_zero_or_pos n with rfl | hPos
  · rfl
  · obtain ⟨c, ds, hDigits, -⟩ := Json.exists_toDigits_eq_cons n
    rw [wholeDigits?]
    · exact digits?_append (fun c hc => Json.isDigit_of_mem_toDigits hc) rest Nat.toDigits_ne_nil
    · intro more hMore
      rw [hDigits] at hMore
      obtain ⟨rfl, -⟩ := List.cons.inj hMore
      exact Json.toDigits_ne_zero_cons hPos ds hDigits

theorem sign_toDigits (n : Nat) (rest : List Char) :
    sign (Nat.toDigits 10 n ++ rest) = (false, Nat.toDigits 10 n ++ rest) := by
  obtain ⟨c, ds, hDigits, hDigit⟩ := Json.exists_toDigits_eq_cons n
  rw [hDigits, List.cons_append, sign]
  · rintro more hMore
    cases hMore
    cases hDigit
  · rintro more hMore
    cases hMore
    cases hDigit

/-- A whole number is no real one. -/
theorem real?_eq_none {text : List Char} {negative : Bool} {n : Nat} {rest : List Char}
    (hSign : sign text = (negative, Nat.toDigits 10 n ++ '\n' :: rest)) : real? text = none := by
  simp only [real?, hSign, wholeDigits?_toDigits]
  rfl

theorem integer?_of_sign {text : List Char} {negative : Bool} {n : Nat} {rest : List Char}
    (hSign : sign text = (negative, Nat.toDigits 10 n ++ '\n' :: rest))
    (hBase : ∀ base ∈ ['x', 'o', 'b'], ∀ more, text ≠ '0' :: base :: more) :
    integer? text = (word? (if negative then -(n : Int) else n)).map (·, '\n' :: rest) := by
  rw [integer?]
  · simp only [hSign, wholeDigits?_toDigits, decimal, Nat.ofDigitChars_ten_toDigits]
  · exact hBase 'x' (by simp)
  · exact hBase 'o' (by simp)
  · exact hBase 'b' (by simp)

/-- The second character of a number with several digits is a digit, and not the letter of a
base. -/
theorem toDigits_ne_base (n : Nat) (rest : List Char) :
    ∀ base ∈ ['x', 'o', 'b'], ∀ more,
      Nat.toDigits 10 n ++ '\n' :: rest ≠ '0' :: base :: more := by
  intro base hBase more hMore
  have hNext : after? [base] ((Nat.toDigits 10 n ++ '\n' :: rest).drop 1) = none := by
    obtain ⟨hLetter, hFeed⟩ : base.isDigit = false ∧ base ≠ '\n' := by
      simp only [List.mem_cons, List.not_mem_nil, or_false] at hBase
      rcases hBase with rfl | rfl | rfl <;> decide
    refine after?_digits (fun c hc => Json.isDigit_of_mem_toDigits hc) rest hLetter hFeed ?_
    intro c hc
    rw [hMore] at hc
    cases List.mem_singleton.1 hc
    decide
  rw [hMore] at hNext
  simp [after?] at hNext

theorem number?_intText {n : Int} (hMin : Int64.minValue.toInt ≤ n)
    (hMax : n ≤ Int64.maxValue.toInt) (rest : List Char) :
    number? (Json.intText n ++ '\n' :: rest) = some (.int n, '\n' :: rest) := by
  have hWord : word? n = some (.int n) := if_pos ⟨hMin, hMax⟩
  cases n with
  | ofNat n =>
    have hDigits : ∀ c ∈ Nat.toDigits 10 n, c.isDigit = true := fun c hc =>
      Json.isDigit_of_mem_toDigits hc
    have hSign := sign_toDigits n ('\n' :: rest)
    rw [Json.intText, number?,
      dateTime?_eq_none (after?_digits hDigits rest (by decide) (by decide))
        (after?_digits hDigits rest (by decide) (by decide)),
      real?_eq_none hSign, integer?_of_sign hSign (toDigits_ne_base n rest)]
    exact congrArg (Option.map (·, '\n' :: rest)) hWord
  | negSucc n =>
    have hSign : sign ('-' :: (Nat.toDigits 10 (n + 1) ++ '\n' :: rest)) =
        (true, Nat.toDigits 10 (n + 1) ++ '\n' :: rest) := rfl
    have hMinus : ∀ count > 0,
        ¬∀ c ∈ ('-' :: (Nat.toDigits 10 (n + 1) ++ '\n' :: rest)).take count, c.isDigit = true := by
      intro count hPos hAll
      obtain ⟨k, rfl⟩ : ∃ k, count = k + 1 := ⟨count - 1, by omega⟩
      cases hAll '-' (by simp)
    rw [Json.intText, List.cons_append, number?,
      dateTime?_eq_none (fun hAll => absurd hAll (hMinus 4 (by decide)))
        (fun hAll => absurd hAll (hMinus 2 (by decide))),
      real?_eq_none hSign, integer?_of_sign hSign (by simp)]
    exact congrArg (Option.map (·, '\n' :: rest)) hWord

theorem toList_toString_int (n : Int) : (toString n).toList = Json.intText n := by
  cases n with
  | ofNat n => exact Nat.toList_repr
  | negSucc n =>
    have hText : toString (Int.negSucc n) = "-" ++ Nat.repr (n + 1) := rfl
    rw [hText, String.toList_append, Nat.toList_repr]
    rfl

theorem scalar?_number {c : Char} (hStarts : Json.StartsNumber c) (rest : List Char) :
    scalar? (c :: rest) = number? (c :: rest) := by
  have hQuote : c ≠ '"' := hStarts.ne (by decide)
  have hApostrophe : c ≠ '\'' := hStarts.ne (by decide)
  have hTrue : c ≠ 't' := hStarts.ne (by decide)
  have hFalse : c ≠ 'f' := hStarts.ne (by decide)
  have hString : string? (c :: rest) = none := by
    unfold string?
    split <;> simp_all [lineString?]
  have hBool : bool? (c :: rest) = none := by
    unfold bool?
    split <;> simp_all
  rw [scalar?, hString, hBool]

theorem written_int (n : Int64) : Written (toString n.toInt).toList (.int n.toInt) := by
  obtain ⟨c, more, hText, hStarts⟩ := Json.exists_intText_eq_cons n.toInt
  rw [toList_toString_int]
  refine ⟨⟨c, more, hText, ?_⟩, fun bound rest hBound => ?_⟩
  · simp [isBlank, hStarts.ne (d := ' ') (by decide), hStarts.ne (d := '\t') (by decide)]
  · have hRead := number?_intText n.minValue_le_toInt n.toInt_le rest
    rw [hText] at hBound hRead ⊢
    obtain ⟨fuel, rfl⟩ : ∃ fuel, bound = fuel + 1 := ⟨bound - 1, by simp at hBound; omega⟩
    rw [List.cons_append] at hRead ⊢
    rw [value?_scalar (hStarts.ne (by decide)) (hStarts.ne (by decide)), scalar?_number hStarts,
      hRead]

end Homonym.Toml
