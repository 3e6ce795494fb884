import Mathlib.Data.Nat.Log
import UBoot.Lib.Uuid

/-!
# Numbers as `sprintf` writes them

The conversions `%llu` and `%0wllx`, and how `simple_strtoul` reads decimal numbers back.
-/

namespace UBoot.Lib

open List

/-- The last `w` digits of a number, highest first. -/
def digitsIn (base : ℕ) : ℕ → ℕ → List ℕ
  | 0, _ => []
  | w + 1, n => digitsIn base w (n / base) ++ [n % base]

/-- The character of a decimal digit. -/
def decChar (n : ℕ) : UInt8 := UInt8.ofNat (48 + n)

/-- A number in the format `%llu`. -/
def fmtU (n : ℕ) : List UInt8 := (digitsIn 10 (Nat.log 10 n + 1) n).map decChar

/-- A number in the format `%0wllx`. -/
def fmtLx (w n : ℕ) : List UInt8 := (digitsIn 16 (max w (Nat.log 16 n + 1)) n).map hexChar

variable {base w n d acc : ℕ} {rest : List UInt8}

theorem digitsIn_lt (hbase : 0 < base) (hd : d ∈ digitsIn base w n) : d < base := by
  induction w generalizing n with
  | zero => exact absurd hd (by simp [digitsIn])
  | succ w ih =>
    rcases mem_append.mp hd with hd | hd
    · exact ih hd
    · rw [mem_singleton.mp hd]
      exact Nat.mod_lt n hbase

/-- The first digit. -/
theorem digitsIn_succ (base w n : ℕ) : digitsIn base (w + 1) n = n / base ^ w % base ::
    digitsIn base w n := by
  induction w generalizing n with
  | zero => simp [digitsIn]
  | succ w ih =>
    rw [digitsIn, ih (n / base), digitsIn, cons_append, Nat.div_div_eq_div_mul, Nat.pow_succ']

theorem decChar_of_lt (h : d < 10) : xdigitValue (decChar d) = some d ∧
    (decChar d = 48 → d = 0) := by
  have hall : ∀ k : Fin 10, xdigitValue (decChar k) = some k.val ∧ (decChar k = 48 → k.val = 0) := by
    decide +kernel
  exact hall ⟨d, h⟩

/-- Decimal digits are read one after the other. -/
theorem readNumber_digitsIn (rest : List UInt8) (hn : n < 10 ^ w)
    (hfits : acc * 10 ^ w + n < 2 ^ 64) :
    readNumber 10 acc ((digitsIn 10 w n).map decChar ++ rest) = readNumber 10 (acc * 10 ^ w + n) rest := by
  induction w generalizing n rest with
  | zero =>
    have hzero : n = 0 := by rw [pow_zero] at hn; omega
    rw [hzero, pow_zero, mul_one]
    rfl
  | succ w ih =>
    have hlt : n % 10 < 10 := Nat.mod_lt _ (by decide)
    rw [pow_succ] at hn hfits
    have hdiv : n / 10 < 10 ^ w := Nat.div_lt_of_lt_mul (by omega)
    have hsum : (acc * 10 ^ w + n / 10) * 10 + n % 10 = acc * 10 ^ (w + 1) + n := by
      rw [Nat.add_mul, Nat.mul_assoc, ← Nat.pow_succ, Nat.add_assoc, Nat.div_add_mod']
    rw [← Nat.pow_succ, ← hsum] at hfits
    rw [digitsIn, map_append, append_assoc, ih _ hdiv (by omega)]
    rw [map_singleton, singleton_append, readNumber, (decChar_of_lt hlt).1]
    dsimp only
    rw [if_pos hlt, Nat.mod_eq_of_lt hfits, hsum]

/-- Reading stops at a character that is no digit. -/
theorem readNumber_stop (h : ∀ b ∈ rest.head?, isxdigit b = false) :
    readNumber base acc rest = (acc, rest) := by
  cases rest with
  | nil => rfl
  | cons b rest =>
    have hb := h b rfl
    rw [isxdigit, Option.isSome_eq_false_iff, Option.isNone_iff_eq_none] at hb
    rw [readNumber, hb]

/-- A decimal number is read up to the first other character. -/
theorem simpleStrtoul_fmtU (hn : n < 2 ^ 64)
    (hrest : ∀ b ∈ rest.head?, isxdigit b = false ∧ b ≠ 120) :
    simpleStrtoul 0 (fmtU n ++ rest) = (n, rest) := by
  have hstop : ∀ b ∈ rest.head?, isxdigit b = false := fun b hb => (hrest b hb).1
  rcases Nat.eq_zero_or_pos n with rfl | hpos
  · -- a single zero selects base 8
    have hfmt : fmtU 0 = [48] := by decide +kernel
    rw [hfmt, singleton_append]
    unfold simpleStrtoul
    split
    · next b p heq =>
      exact absurd rfl (hrest 120 (by rw [(cons.inj heq).2]; rfl)).2
    · next p _ heq =>
      rw [← (cons.inj heq).2, readNumber_stop hstop]
    · next hne => exact absurd rfl (hne rest)
  · have hlog : 10 ^ Nat.log 10 n ≤ n := Nat.pow_log_le_self 10 (by omega)
    have hlt : n < 10 ^ (Nat.log 10 n + 1) := Nat.lt_pow_succ_log_self (by decide) n
    have hread : readNumber 10 0 (fmtU n ++ rest) = (n, rest) := by
      rw [fmtU, readNumber_digitsIn rest hlt (by rw [Nat.zero_mul]; omega),
        Nat.zero_mul, Nat.zero_add, readNumber_stop hstop]
    -- the first digit is not a zero
    have hfirst : n / 10 ^ Nat.log 10 n % 10 ≠ 0 := by
      have hq : 1 ≤ n / 10 ^ Nat.log 10 n := (Nat.one_le_div_iff (Nat.pow_pos (by decide))).mpr hlog
      have hq' : n / 10 ^ Nat.log 10 n < 10 := Nat.div_lt_of_lt_mul hlt
      omega
    have hhead : fmtU n ++ rest =
        decChar (n / 10 ^ Nat.log 10 n % 10) :: ((digitsIn 10 (Nat.log 10 n) n).map decChar ++ rest) := by
      rw [fmtU, digitsIn_succ, map_cons, cons_append]
    have hne : decChar (n / 10 ^ Nat.log 10 n % 10) ≠ 48 := fun h =>
      hfirst ((decChar_of_lt (Nat.mod_lt _ (by decide))).2 h)
    rw [← hread, hhead]
    generalize decChar (n / 10 ^ Nat.log 10 n % 10) = c at hne
    unfold simpleStrtoul
    split
    · next heq => exact absurd (cons.inj heq).1 hne
    · next heq => exact absurd (cons.inj heq).1 hne
    · rfl

end UBoot.Lib
