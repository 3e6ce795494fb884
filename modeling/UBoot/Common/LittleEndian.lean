import UBoot.Common.Memory

/-!
# Little-endian numbers

The `n` low bytes of a number, lowest first, and the number read back from a list of bytes.
-/

namespace UBoot.Common

/-- The `n` low bytes of `x`, lowest first. -/
def leBytes : ℕ → ℕ → List UInt8
  | 0, _ => []
  | n + 1, x => UInt8.ofNat (x % 256) :: leBytes n (x / 256)

/-- The number whose bytes, lowest first, are given. -/
def ofLe : List UInt8 → ℕ
  | [] => 0
  | c :: l => c.toNat + 256 * ofLe l

@[simp] theorem length_leBytes (n x : ℕ) : (leBytes n x).length = n := by
  induction n generalizing x with
  | zero => rfl
  | succ n ih => simp [leBytes, ih]

theorem toNat_ofNat_mod (x : ℕ) : (UInt8.ofNat (x % 256)).toNat = x % 256 :=
  UInt8.toNat_ofNat_of_lt (Nat.mod_lt _ (by decide))

theorem ofLe_leBytes {n x : ℕ} (h : x < 256 ^ n) : ofLe (leBytes n x) = x := by
  induction n generalizing x with
  | zero =>
    simp [leBytes, ofLe, Nat.lt_one_iff.mp h]
  | succ n ih =>
    have hdiv : x / 256 < 256 ^ n := by
      rw [Nat.div_lt_iff_lt_mul (by decide)]
      rwa [pow_succ] at h
    rw [leBytes, ofLe, ih hdiv, toNat_ofNat_mod]
    omega

section Load

variable {mem : ℕ → UInt8} {a n x : ℕ} {l : List UInt8}

theorem Contains.ofLe_load (h : Contains mem a (leBytes n x)) (hx : x < 256 ^ n) :
    ofLe (load mem a n) = x := by
  have hload := h.load_eq
  rw [length_leBytes] at hload
  rw [hload, ofLe_leBytes hx]

/-- A number in front of other bytes. -/
theorem Contains.ofLe_append (h : Contains mem a (leBytes n x ++ l)) (hx : x < 256 ^ n) :
    ofLe (load mem a n) = x ∧ Contains mem (a + n) l := by
  rw [contains_append, length_leBytes] at h
  exact ⟨h.1.ofLe_load hx, h.2⟩

end Load

theorem ofLe_lt (l : List UInt8) : ofLe l < 256 ^ l.length := by
  induction l with
  | nil => simp [ofLe]
  | cons c l ih =>
    have hc := c.toNat_lt
    rw [ofLe, List.length_cons]
    omega

theorem leBytes_ofLe (l : List UInt8) : leBytes l.length (ofLe l) = l := by
  induction l with
  | nil => rfl
  | cons c l ih =>
    have hc := c.toNat_lt
    rw [List.length_cons, leBytes, ofLe, show (c.toNat + 256 * ofLe l) % 256 = c.toNat by omega,
      show (c.toNat + 256 * ofLe l) / 256 = ofLe l by omega, ih, UInt8.ofNat_toNat]

end UBoot.Common
