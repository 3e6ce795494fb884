import Mathlib.Data.Nat.Bitwise

/-!
# Alignment by masks

Clearing the low bits of a word with the mask of a power of two, as arithmetic on natural numbers.
-/

namespace UBoot.Common

/-- The largest multiple of `a` up to `n`. -/
def roundDown (n a : ℕ) : ℕ := n / a * a

/-- The smallest multiple of `a` from `n` on. -/
def roundUp (n a : ℕ) : ℕ := roundDown (n + a - 1) a

theorem roundDown_le (n a : ℕ) : roundDown n a ≤ n := Nat.div_mul_le_self n a

theorem dvd_roundDown (n a : ℕ) : a ∣ roundDown n a := dvd_mul_left a _

variable {n a m : ℕ}

theorem le_roundDown (hm : a ∣ m) (h : m ≤ n) : m ≤ roundDown n a := by
  obtain ⟨k, rfl⟩ := hm
  rcases Nat.eq_zero_or_pos a with rfl | ha
  · simp
  · rw [mul_comm a k]
    exact Nat.mul_le_mul_right a ((Nat.le_div_iff_mul_le ha).mpr (by rwa [mul_comm]))

theorem le_roundUp (ha : 0 < a) : n ≤ roundUp n a := by
  have hmod := Nat.mod_lt (n + a - 1) ha
  have hdiv := Nat.div_add_mod' (n + a - 1) a
  rw [roundUp, roundDown]
  omega

theorem roundUp_le (ha : 0 < a) (hm : a ∣ m) (h : n ≤ m) : roundUp n a ≤ m := by
  obtain ⟨k, rfl⟩ := hm
  rw [mul_comm a k]
  refine Nat.mul_le_mul_right a (Nat.lt_succ_iff.mp ((Nat.div_lt_iff_lt_mul ha).mpr ?_))
  rw [Nat.succ_mul, mul_comm k a]
  omega

theorem roundDown_mod (ham : a ∣ m) (n : ℕ) : roundDown (n % m) a = roundDown n a % m := by
  obtain ⟨q, rfl⟩ := ham
  rw [roundDown, roundDown, Nat.mod_mul_right_div_self, mul_comm a q, Nat.mul_mod_mul_right]

theorem roundDown_add_self (ha : 0 < a) (n : ℕ) : roundDown (n + a) a = roundDown n a + a := by
  rw [roundDown, roundDown, Nat.add_div_right n ha, Nat.succ_mul]

variable {w k : ℕ}

/-- Masking off the bits below a power of two rounds down. -/
theorem toNat_and_not_sub_one {m : BitVec w} (hm : m.toNat = 2 ^ k) (x : BitVec w) :
    (x &&& ~~~(m - 1)).toNat = roundDown x.toNat m.toNat := by
  have hw : 0 < w := by
    rcases Nat.eq_zero_or_pos w with rfl | hw
    · exact absurd (hm ▸ m.isLt) (by simp)
    · exact hw
  have hone : (m - 1).toNat = 2 ^ k - 1 := by
    have h1 : (1 : BitVec w).toNat = 1 := by
      simpa using Nat.one_mod_eq_one.mpr (Nat.one_lt_two_pow hw.ne').ne'
    have hle : (1 : BitVec w) ≤ m := by
      rw [BitVec.le_def, h1, hm]
      exact Nat.one_le_two_pow
    rw [BitVec.toNat_sub_of_le hle, hm, h1]
  rw [hm]
  refine Nat.eq_of_testBit_eq fun i => ?_
  rw [roundDown, Nat.testBit_mul_two_pow, Nat.testBit_div_two_pow, BitVec.testBit_toNat,
    BitVec.getLsbD_and, BitVec.getLsbD_not, ← BitVec.testBit_toNat (m - 1), hone]
  by_cases hik : i < k
  · simp [hik]
  · rw [Nat.sub_add_cancel (not_lt.mp hik), BitVec.testBit_toNat]
    by_cases hiw : i < w
    · simp [hiw, not_lt.mp hik]
    · simp [BitVec.getLsbD_of_ge x i (not_lt.mp hiw)]

end UBoot.Common
