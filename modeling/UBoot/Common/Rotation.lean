import Mathlib.Data.ZMod.Basic
import Mathlib.Algebra.Field.ZMod
import Mathlib.Tactic.Ring

/-!
# Stepping down a ring of slots

Slots are numbered `1 … n`. `stepDown n s` moves `s` slots down and wraps from the bottom to the
top; modulo `n` it subtracts `s`. When `n` is prime and `0 < s < n`, `n` steps from any slot visit
every slot exactly once.
-/

namespace UBoot.Common

/-- Move `s` slots down in the ring `1 … n`. -/
def stepDown (n s i : ℕ) : ℕ := if i ≤ s then n + i - s else i - s

/-- The slot reached from `i` after `k` steps. -/
def probe (n s i k : ℕ) : ℕ := (stepDown n s)^[k] i

theorem probe_zero (n s i : ℕ) : probe n s i 0 = i := rfl

theorem probe_succ (n s i k : ℕ) : probe n s i (k + 1) = stepDown n s (probe n s i k) :=
  Function.iterate_succ_apply' _ _ _

variable {i j : ℕ}

section

variable {n s : ℕ}

theorem probe_mem (hs : s < n) (hi : 1 ≤ i ∧ i ≤ n) (k : ℕ) :
    1 ≤ probe n s i k ∧ probe n s i k ≤ n := by
  induction k with
  | zero => exact hi
  | succ k ih =>
    rw [probe_succ, stepDown]
    split <;> omega

/-- Modulo `n`, a step subtracts `s`. -/
theorem cast_stepDown (hs : s < n) : ((stepDown n s i : ℕ) : ZMod n) = i - s := by
  unfold stepDown
  split
  · rw [Nat.cast_sub (by omega), Nat.cast_add, ZMod.natCast_self, zero_add]
  · rw [Nat.cast_sub (by omega)]

/-- Modulo `n`, `k` steps subtract `k * s`. -/
theorem cast_probe (hs : s < n) (i k : ℕ) : ((probe n s i k : ℕ) : ZMod n) = i - k * s := by
  induction k with
  | zero => simp [probe_zero]
  | succ k ih =>
    rw [probe_succ, cast_stepDown hs, ih]
    push_cast
    ring

/-- A slot number is determined by its residue. -/
theorem eq_of_cast_eq (hi : 1 ≤ i ∧ i ≤ n) (hj : 1 ≤ j ∧ j ≤ n) (h : (i : ZMod n) = j) : i = j := by
  obtain ⟨i, rfl⟩ := Nat.exists_eq_add_of_le' hi.1
  obtain ⟨j, rfl⟩ := Nat.exists_eq_add_of_le' hj.1
  rw [ZMod.natCast_eq_natCast_iff] at h
  rw [(Nat.ModEq.add_right_cancel' 1 h).eq_of_lt_of_lt (by omega) (by omega)]

end

section Prime

variable {p s : ℕ} [Fact p.Prime]

/-- Within one turn no slot is visited twice. -/
theorem probe_inj (hs : 0 < s ∧ s < p) {k l : ℕ} (hk : k < p) (hl : l < p)
    (h : probe p s i k = probe p s i l) : k = l := by
  have hc : ((probe p s i k : ℕ) : ZMod p) = (probe p s i l : ℕ) := by rw [h]
  rw [cast_probe hs.2, cast_probe hs.2] at hc
  have hs0 : (s : ZMod p) ≠ 0 := by
    rw [Ne, ZMod.natCast_eq_zero_iff]
    exact fun hd => absurd (Nat.le_of_dvd hs.1 hd) (by omega)
  have hkl : (k : ZMod p) = l := mul_right_cancel₀ hs0 (sub_right_injective hc)
  rwa [ZMod.natCast_eq_natCast_iff', Nat.mod_eq_of_lt hk, Nat.mod_eq_of_lt hl] at hkl

/-- One turn visits every slot. -/
theorem exists_probe_eq (hs : 0 < s ∧ s < p) (hi : 1 ≤ i ∧ i ≤ p)
    (hj : 1 ≤ j ∧ j ≤ p) : ∃ k < p, probe p s i k = j := by
  have hmaps : Set.MapsTo (probe p s i) (Finset.range p) (Finset.Icc 1 p) := by
    intro k _
    simpa using probe_mem hs.2 hi k
  have hinj : Set.InjOn (probe p s i) (Finset.range p) := by
    intro k hk l hl h
    exact probe_inj hs (by simpa using hk) (by simpa using hl) h
  have hsurj := Finset.surjOn_of_injOn_of_card_le _ hmaps hinj (by simp)
  obtain ⟨k, hk, hkj⟩ := hsurj (show j ∈ (Finset.Icc 1 p : Finset ℕ) by simpa using hj)
  exact ⟨k, by simpa using hk, hkj⟩

/-- A full turn leads back to the start. -/
theorem probe_turn (hs : s < p) (hi : 1 ≤ i ∧ i ≤ p) : probe p s i p = i := by
  apply eq_of_cast_eq (probe_mem hs hi p) hi
  rw [cast_probe hs, ZMod.natCast_self, zero_mul, sub_zero]

/-- Inside a turn the start is not met again. -/
theorem probe_ne_start (hs : 0 < s ∧ s < p) {k : ℕ} (hk0 : 0 < k) (hk : k < p) :
    probe p s i k ≠ i := by
  intro h
  have h0 : k = 0 := probe_inj hs hk (by omega) (by rw [h, probe_zero])
  omega

end Prime

end UBoot.Common
