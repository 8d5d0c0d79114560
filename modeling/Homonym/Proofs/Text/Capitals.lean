/-!
# Small letters and capitals

Letters are those of ASCII. A character made small is no capital, neither are small letters and
digits, and a small letter that is made a capital is found again.
-/

namespace Homonym.Text

/-- The text has no capitals. -/
def NoCapital (text : List Char) : Prop :=
  ∀ c ∈ text, c.isUpper = false

theorem isUpper_iff {c : Char} : c.isUpper = true ↔ 'A'.val ≤ c.val ∧ c.val ≤ 'Z'.val :=
  decide_eq_true_iff

theorem isLower_iff {c : Char} : c.isLower = true ↔ 'a'.val ≤ c.val ∧ c.val ≤ 'z'.val :=
  Bool.and_eq_true_iff.trans (and_congr decide_eq_true_iff decide_eq_true_iff)

theorem isUpper_toLower (c : Char) : c.toLower.isUpper = false := by
  rw [Bool.eq_false_iff, ne_eq, isUpper_iff]
  by_cases hCapital : 'A'.val ≤ c.val ∧ c.val ≤ 'Z'.val
  · have hDown : c.toLower.val = c.val + ('a'.val - 'A'.val) := congrArg Char.val (dif_pos hCapital)
    grind [UInt32.toNat_add]
  · have hKept : c.toLower = c := dif_neg hCapital
    rwa [hKept]

theorem isUpper_of_isDigit {c : Char} (hDigit : c.isDigit = true) : c.isUpper = false := by
  have hRange : '0'.val ≤ c.val ∧ c.val ≤ '9'.val :=
    (Bool.and_eq_true_iff.1 hDigit).imp of_decide_eq_true of_decide_eq_true
  rw [Bool.eq_false_iff, ne_eq, isUpper_iff]
  grind

variable {c : Char} (hLower : c.isLower = true)
include hLower

theorem isUpper_of_isLower : c.isUpper = false := by
  rw [isLower_iff] at hLower
  rw [Bool.eq_false_iff, ne_eq, isUpper_iff]
  grind

theorem val_toUpper : c.toUpper.val = c.val + ('A'.val - 'a'.val) := by
  have hUp : c.toUpper = _ := dif_pos (isLower_iff.1 hLower)
  rw [hUp]

theorem isUpper_toUpper : c.toUpper.isUpper = true := by
  rw [isUpper_iff, val_toUpper hLower]
  rw [isLower_iff] at hLower
  grind [UInt32.toNat_add]

theorem toLower_toUpper : c.toUpper.toLower = c := by
  have hDown : c.toUpper.toLower.val = c.toUpper.val + ('a'.val - 'A'.val) :=
    congrArg Char.val (dif_pos (isUpper_iff.1 (isUpper_toUpper hLower)))
  refine Char.ext ?_
  rw [hDown, val_toUpper hLower, UInt32.add_assoc]
  exact UInt32.add_zero _

end Homonym.Text
