import Mathlib.Tactic.SplitIfs
import Homonym.Json.Lexical
import Homonym.Json.Writer

/-!
# Strings and numbers of JSON read back

What the writer makes of a text or of an integer, the readers of `Json.Lexical` take back, whatever
follows.

* `stringBody?_escaped`: every character is escaped in a way that is resolved to itself, so the text
  between the quotes comes back.
* `number?_intText`: an integer of the 64-bit words comes back, if what follows does not go on with
  the number (`EndsNumber`).
-/

namespace Homonym.Json

open Text

/-! ## Strings -/

theorem hexValue?_digitChar {d : Nat} (h : d < 16) : hexValue? (Nat.digitChar d) = some d := by
  have hAll : ∀ d < 16, hexValue? (Nat.digitChar d) = some d := by decide
  exact hAll d h

/-- An escape by four digits is resolved whatever follows it, another such escape included. -/
theorem stringBody?_hexFour {a b c d : Char} {n : Nat} (h : hexFour? a b c d = some n)
    (hHigh : isHighSurrogate n = false) (hLow : isLowSurrogate n = false) (rest : List Char) :
    stringBody? ('\\' :: 'u' :: a :: b :: c :: d :: rest) =
      (stringBody? rest).map fun (text, after) => (Char.ofNat n :: text, after) := by
  rw [stringBody?.eq_def]
  split
  · next heq => cases heq
  · next heq => cases heq
  · next heq =>
    cases heq
    simp only [h, hHigh, hLow, Bool.false_eq_true, if_false]
  · next heq =>
    cases heq
    simp only [h, hHigh, hLow, Bool.or_self, Bool.false_eq_true, if_false]
  · next hNotLong hNotShort heq =>
    obtain ⟨-, hTail⟩ := List.cons.inj heq
    obtain ⟨hu, rfl⟩ := List.cons.inj hTail
    exact (hNotShort a b c d rest hu.symm rfl).elim
  · next hNot heq =>
    obtain ⟨rfl, rfl⟩ := List.cons.inj heq
    exact absurd rfl (hNot 'u' _ rfl)

theorem stringBody?_shortEscape {c e : Char} (hu : c ≠ 'u') (h : shortEscape? c = some e)
    (rest : List Char) :
    stringBody? ('\\' :: c :: rest) =
      (stringBody? rest).map fun (text, after) => (e :: text, after) := by
  rw [stringBody?.eq_def]
  split
  · next heq => cases heq
  · next heq => cases heq
  · next heq =>
    cases heq
    exact absurd rfl hu
  · next heq =>
    cases heq
    exact absurd rfl hu
  · next heq =>
    cases heq
    simp only [h]
  · next hNot heq =>
    obtain ⟨rfl, rfl⟩ := List.cons.inj heq
    exact absurd rfl (hNot c rest rfl)

theorem stringBody?_plain {c : Char} (hQuote : c ≠ '"') (hEscape : c ≠ '\\')
    (hControl : ¬ c.toNat < 0x20) (rest : List Char) :
    stringBody? (c :: rest) = (stringBody? rest).map fun (text, after) => (c :: text, after) := by
  rw [stringBody?.eq_def]
  split
  · next heq => cases heq
  · next heq =>
    cases heq
    exact absurd rfl hQuote
  · next heq =>
    cases heq
    exact absurd rfl hEscape
  · next heq =>
    cases heq
    exact absurd rfl hEscape
  · next heq =>
    cases heq
    exact absurd rfl hEscape
  · next heq =>
    cases heq
    simp only [hControl, decide_false, beq_false_of_ne hEscape, Bool.or_self, Bool.false_eq_true,
      if_false]

/-- What a character is written as is read as that character. -/
theorem stringBody?_escape (c : Char) (rest : List Char) :
    stringBody? (escape c ++ rest) =
      (stringBody? rest).map fun (text, after) => (c :: text, after) := by
  unfold escape
  split_ifs with hQuote hEscape hFeed hReturn hTab hBack hForm hControl
  · subst hQuote
    exact stringBody?_shortEscape (by decide) rfl rest
  · subst hEscape
    exact stringBody?_shortEscape (by decide) rfl rest
  · subst hFeed
    exact stringBody?_shortEscape (by decide) rfl rest
  · subst hReturn
    exact stringBody?_shortEscape (by decide) rfl rest
  · subst hTab
    exact stringBody?_shortEscape (by decide) rfl rest
  · subst hBack
    exact stringBody?_shortEscape (by decide) rfl rest
  · subst hForm
    exact stringBody?_shortEscape (by decide) rfl rest
  · have hDigits : hexFour? (Nat.digitChar (c.toNat / 4096 % 16))
        (Nat.digitChar (c.toNat / 256 % 16)) (Nat.digitChar (c.toNat / 16 % 16))
        (Nat.digitChar (c.toNat % 16)) = some c.toNat := by
      have hValue : ((c.toNat / 4096 % 16) * 16 + c.toNat / 256 % 16) * 256 +
          (c.toNat / 16 % 16) * 16 + c.toNat % 16 = c.toNat := by omega
      simp only [hexFour?, hexValue?_digitChar (Nat.mod_lt _ (by decide : 0 < 16)),
        Option.pure_def, Option.bind_eq_bind, Option.bind_some, hValue]
    have hHigh : isHighSurrogate c.toNat = false := by
      simp only [isHighSurrogate, Bool.and_eq_false_iff, decide_eq_false_iff_not]
      omega
    have hLow : isLowSurrogate c.toNat = false := by
      simp only [isLowSurrogate, Bool.and_eq_false_iff, decide_eq_false_iff_not]
      omega
    have hRead := stringBody?_hexFour hDigits hHigh hLow rest
    rwa [Char.ofNat_toNat] at hRead
  · exact stringBody?_plain hQuote hEscape hControl rest

theorem stringBody?_escaped (text rest : List Char) :
    stringBody? (text.flatMap escape ++ '"' :: rest) = some (text, rest) := by
  induction text with
  | nil => simp [stringBody?]
  | cons c text ih =>
    rw [List.flatMap_cons, List.append_assoc, stringBody?_escape, ih]
    rfl

/-! ## Numbers -/

/-- The text does not go on with a number that ends in front of it. -/
def EndsNumber (rest : List Char) : Prop :=
  ∀ c, rest.head? = some c → c.isDigit = false ∧ c ≠ '.' ∧ c ≠ 'e' ∧ c ≠ 'E'

theorem endsNumber_nil : EndsNumber [] := fun _ h => by cases h

theorem endsNumber_cons {c : Char} (hDigit : c.isDigit = false) (hPoint : c ≠ '.') (he : c ≠ 'e')
    (hE : c ≠ 'E') (rest : List Char) : EndsNumber (c :: rest) := fun d hd => by
  cases hd
  exact ⟨hDigit, hPoint, he, hE⟩

theorem isDigit_of_mem_toDigits {n : Nat} {c : Char} (h : c ∈ Nat.toDigits 10 n) :
    c.isDigit = true :=
  Nat.isDigit_of_mem_toDigits (by decide) (by decide) h

theorem exists_toDigits_eq_cons (n : Nat) :
    ∃ c ds, Nat.toDigits 10 n = c :: ds ∧ c.isDigit = true := by
  obtain ⟨c, ds, hDigits⟩ := List.exists_cons_of_ne_nil (Nat.toDigits_ne_nil (n := n) (b := 10))
  have hMem : c ∈ Nat.toDigits 10 n := hDigits ▸ List.mem_cons_self
  exact ⟨c, ds, hDigits, isDigit_of_mem_toDigits hMem⟩

/-- Decimal texts have no leading zero. -/
theorem toDigits_ne_zero_cons {n : Nat} (h : 0 < n) (more : List Char) :
    Nat.toDigits 10 n ≠ '0' :: more := by
  induction n using Nat.strongRecOn generalizing more with
  | ind n ih =>
    rw [Nat.toDigits_eq_if (by decide : 1 < 10)]
    split
    · next hSmall =>
      have hAll : ∀ n < 10, 0 < n → Nat.digitChar n ≠ '0' := by decide
      exact fun hZero => hAll n hSmall h (List.cons.inj hZero).1
    · obtain ⟨c, ds, hDigits, -⟩ := exists_toDigits_eq_cons (n / 10)
      rw [hDigits]
      intro hZero
      obtain ⟨rfl, -⟩ := List.cons.inj hZero
      exact ih (n / 10) (by omega) (by omega) ds hDigits

/-- A character that a number may begin with. -/
def StartsNumber (c : Char) : Prop :=
  c.isDigit = true ∨ c = '-'

theorem exists_intText_eq_cons (n : Int) : ∃ c more, intText n = c :: more ∧ StartsNumber c := by
  cases n with
  | ofNat n =>
    obtain ⟨c, ds, hDigits, hc⟩ := exists_toDigits_eq_cons n
    exact ⟨c, ds, hDigits, Or.inl hc⟩
  | negSucc n => exact ⟨'-', _, rfl, Or.inr rfl⟩

theorem StartsNumber.ne {c d : Char} (h : StartsNumber c) (hd : d.isDigit = false ∧ d ≠ '-') :
    c ≠ d := by
  rintro rfl
  rcases h with hDigit | hMinus
  · rw [hd.1] at hDigit
    cases hDigit
  · exact hd.2 hMinus

section Number

variable {rest : List Char} (hRest : EndsNumber rest)

include hRest

theorem digits?_toDigits (n : Nat) :
    digits? (Nat.toDigits 10 n ++ rest) = some (Nat.toDigits 10 n, rest) := by
  have hTake : rest.takeWhile Char.isDigit = [] := by
    cases rest with
    | nil => rfl
    | cons c rest => rw [List.takeWhile_cons, (hRest c rfl).1]; rfl
  have hDrop : rest.dropWhile Char.isDigit = rest := by
    cases rest with
    | nil => rfl
    | cons c rest => rw [List.dropWhile_cons, (hRest c rfl).1]; rfl
  have hDigits : ∀ c ∈ Nat.toDigits 10 n, c.isDigit = true := fun c hc => isDigit_of_mem_toDigits hc
  rw [digits?, List.takeWhile_append_of_pos hDigits, List.dropWhile_append_of_pos hDigits, hTake,
    hDrop, List.append_nil]
  split
  · next hNil => exact absurd hNil Nat.toDigits_ne_nil
  · rfl

theorem wholeDigits?_toDigits (n : Nat) :
    wholeDigits? (Nat.toDigits 10 n ++ rest) = some (Nat.toDigits 10 n, rest) := by
  rcases Nat.eq_zero_or_pos n with rfl | hPos
  · rfl
  · obtain ⟨c, ds, hDigits, -⟩ := exists_toDigits_eq_cons n
    rw [wholeDigits?]
    · exact digits?_toDigits hRest n
    · intro more hMore
      rw [hDigits] at hMore
      obtain ⟨rfl, -⟩ := List.cons.inj hMore
      exact toDigits_ne_zero_cons hPos ds hDigits

theorem fraction?_ended : fraction? rest = some ([], rest) := by
  rw [fraction?]
  intro more hMore
  subst hMore
  exact (hRest '.' rfl).2.1 rfl

theorem exponent?_ended : exponent? rest = some ([], rest) := by
  cases rest with
  | nil => rfl
  | cons c rest =>
    obtain ⟨-, -, he, hE⟩ := hRest c rfl
    simp only [exponent?, beq_false_of_ne he, beq_false_of_ne hE, Bool.or_self,
      Bool.false_eq_true, if_false]

theorem unsignedNumber?_toDigits (negative : Bool) (n : Nat) :
    unsignedNumber? negative (Nat.toDigits 10 n ++ rest) =
      some (wholeNumber negative (Nat.toDigits 10 n), rest) := by
  simp only [unsignedNumber?, wholeDigits?_toDigits hRest, fraction?_ended hRest,
    exponent?_ended hRest, List.isEmpty_nil, Bool.and_self, if_true]

/-- An integer of the 64-bit words comes back. -/
theorem number?_intText {n : Int} (hMin : intMin ≤ n) (hMax : n ≤ intMax) :
    number? (intText n ++ rest) = some (.int n, rest) := by
  cases n with
  | ofNat n =>
    have hMinus : ∀ more, Nat.toDigits 10 n ++ rest ≠ '-' :: more := by
      intro more hMore
      obtain ⟨c, ds, hDigits, hc⟩ := exists_toDigits_eq_cons n
      rw [hDigits] at hMore
      obtain ⟨rfl, -⟩ := List.cons.inj hMore
      cases hc
    rw [intText, number?]
    · rw [unsignedNumber?_toDigits hRest, wholeNumber, Nat.ofDigitChars_ten_toDigits]
      have hFits : (n : Int) ≤ intMax := hMax
      simp only [Bool.false_eq_true, if_false, if_pos hFits]
      rfl
    · exact hMinus
  | negSucc n =>
    have hFits : 0 < n + 1 ∧ intMin ≤ -((n + 1 : Nat) : Int) := ⟨Nat.succ_pos n, hMin⟩
    rw [intText, List.cons_append, number?, unsignedNumber?_toDigits hRest, wholeNumber,
      Nat.ofDigitChars_ten_toDigits]
    simp only [if_true, if_pos hFits]
    rfl

end Number

end Homonym.Json
