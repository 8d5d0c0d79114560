import Homonym.Pattern.Glob

/-!
# The order of bytes

Texts are compared by their characters, file systems compare names by their bytes. In UTF-8 both
orders are the same (`bytes_lt`): of two characters the smaller one has the smaller bytes, since
longer codes begin with greater bytes and codes of one length are numbers in base 64, greatest
digit first.
-/

namespace Homonym.Pattern

/-- The codes of a character, by the size of its number. -/
theorem utf8EncodeChar_cases (c : Char) :
    let v := c.val.toNat
    (v < 0x80 ∧ String.utf8EncodeChar c = [.ofNat v]) ∨
    (0x80 ≤ v ∧ v < 0x800 ∧
      String.utf8EncodeChar c = [.ofNat (v / 64 % 32 + 0xC0), .ofNat (v % 64 + 0x80)]) ∨
    (0x800 ≤ v ∧ v < 0x10000 ∧
      String.utf8EncodeChar c = [.ofNat (v / 64 / 64 % 16 + 0xE0), .ofNat (v / 64 % 64 + 0x80),
        .ofNat (v % 64 + 0x80)]) ∨
    (0x10000 ≤ v ∧ v < 0x110000 ∧
      String.utf8EncodeChar c = [.ofNat (v / 64 / 64 / 64 + 0xF0), .ofNat (v / 64 / 64 % 64 + 0x80),
        .ofNat (v / 64 % 64 + 0x80), .ofNat (v % 64 + 0x80)]) := by
  intro v
  have hBound : v < 0x110000 := by
    rcases c.valid with h | h
    · exact Nat.lt_trans h (by decide)
    · exact h.2
  have hSecond : v / 4096 = v / 64 / 64 := by omega
  have hThird : v / 262144 % 8 = v / 64 / 64 / 64 := by omega
  simp only [String.utf8EncodeChar, show c.val.toNat = v from rfl, hSecond, hThird]
  by_cases h₁ : v ≤ 0x7F
  · exact .inl ⟨by omega, if_pos h₁⟩
  · rw [if_neg h₁]
    by_cases h₂ : v ≤ 0x7FF
    · exact .inr (.inl ⟨by omega, by omega, if_pos h₂⟩)
    · rw [if_neg h₂]
      by_cases h₃ : v ≤ 0xFFFF
      · exact .inr (.inr (.inl ⟨by omega, by omega, if_pos h₃⟩))
      · exact .inr (.inr (.inr ⟨by omega, by omega, if_neg h₃⟩))

theorem byte_lt_byte {m n : Nat} (hm : m < 256) (hn : n < 256) :
    UInt8.ofNat m < UInt8.ofNat n ↔ m < n := by
  rw [UInt8.lt_iff_toNat_lt, UInt8.toNat_ofNat', UInt8.toNat_ofNat', Nat.mod_eq_of_lt hm,
    Nat.mod_eq_of_lt hn]

theorem byte_eq_byte {m n : Nat} (hm : m < 256) (hn : n < 256) :
    UInt8.ofNat m = UInt8.ofNat n ↔ m = n := by
  rw [← UInt8.toNat_inj, UInt8.toNat_ofNat', UInt8.toNat_ofNat', Nat.mod_eq_of_lt hm,
    Nat.mod_eq_of_lt hn]

theorem utf8EncodeChar_lt {c d : Char} (hLess : c < d) (s t : Bytes) :
    String.utf8EncodeChar c ++ s < String.utf8EncodeChar d ++ t := by
  have hVal : c.val.toNat < d.val.toNat := UInt32.lt_iff_toNat_lt.1 hLess
  -- By the lengths of the codes; for codes of one length the digits are compared in turn.
  obtain ⟨hc, hcs⟩ | ⟨hc, hc', hcs⟩ | ⟨hc, hc', hcs⟩ | ⟨hc, hc', hcs⟩ := utf8EncodeChar_cases c <;>
  obtain ⟨hd, hds⟩ | ⟨hd, hd', hds⟩ | ⟨hd, hd', hds⟩ | ⟨hd, hd', hds⟩ :=
    utf8EncodeChar_cases d <;>
  rw [hcs, hds] <;>
  simp (disch := omega) only [List.cons_append, List.nil_append, List.cons_lt_cons_iff,
    byte_lt_byte, byte_eq_byte] <;>
  omega

/-- **The order of bytes is the order of characters.** -/
theorem bytes_lt {a b : List Char} (hLess : a < b) : bytes a < bytes b := by
  induction hLess with
  | nil =>
    obtain ⟨first, rest, hCode⟩ := List.exists_cons_of_ne_nil (String.utf8EncodeChar_ne_nil)
    rw [bytes, bytes, List.flatMap_cons, hCode]
    exact List.nil_lt_cons _ _
  | rel hHead => exact utf8EncodeChar_lt hHead _ _
  | cons _ ih => exact List.append_left_lt ih

end Homonym.Pattern
