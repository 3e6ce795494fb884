import Mathlib.NumberTheory.Bertrand
import Mathlib.NumberTheory.LucasLehmer
import UBoot.Env.HashtableMap

/-!
# The size of a fresh table

`isprime` tries the odd divisors from 3 on, in 32-bit arithmetic. A number it accepts is a prime (or
1): the square of the last divisor tried can only wrap when the divisor is beyond the root of every
32-bit number. So the tables made by `hcreate_r` have an odd prime size, or size 1, and store the
empty map.
-/

namespace UBoot.Env

open UBoot.Common

/-- `div` is odd, no divisor below it divides `number`, and `fuel` more rounds reach `number`. -/
structure IsprimeInv (number fuel div : ℕ) : Prop where
  odd : div % 2 = 1
  three_le : 3 ≤ div
  le : div ≤ number
  none_below : ∀ d, d % 2 = 1 → 3 ≤ d → d < div → number % d ≠ 0
  enough : number < div + 2 * fuel

variable {number nel size : ℕ} {κ : Type}

/-- Where the loop of `isprime` stops, no odd divisor was found below, and the square of `div` or
the remainder ends it. -/
theorem isprimeLoop_spec (hodd : number % 2 = 1) (hlt : number < 2 ^ 32) :
    ∀ {fuel div : ℕ}, IsprimeInv number fuel div →
        (∀ d, d % 2 = 1 → 3 ≤ d → d < isprimeLoop number fuel div → number % d ≠ 0) ∧
        (number ≤ isprimeLoop number fuel div * isprimeLoop number fuel div ∨
          number % isprimeLoop number fuel div = 0)
  | 0, div, h => absurd h.enough (by have := h.le; omega)
  | fuel + 1, div, h => by
    have hne := h.none_below
    have hle := h.le
    have hdodd := h.odd
    simp only [isprimeLoop]
    by_cases hgo : div * div % 2 ^ 32 < number ∧ number % div ≠ 0
    · rw [if_pos hgo]
      -- `div` does not divide `number`, so it is smaller, by at least two
      have hdiv : div ≠ number := fun heq => hgo.2 (by rw [heq, Nat.mod_self])
      refine isprimeLoop_spec hodd hlt ⟨by omega, by omega, by omega, ?_, by have := h.enough; omega⟩
      intro d hd h3 hlt'
      by_cases heq : d = div
      · rw [heq]
        exact hgo.2
      · exact hne d hd h3 (by omega)
    · rw [if_neg hgo]
      refine ⟨hne, ?_⟩
      by_cases hz : number % div = 0
      · exact .inr hz
      · exact .inl (by omega)

/-- An odd number accepted by `isprime` is 1 or a prime. -/
theorem prime_of_isprime (hodd : number % 2 = 1) (hlt : number < 2 ^ 32)
    (h : isprime number = true) : number = 1 ∨ number.Prime := by
  by_cases h1 : number = 1
  · exact .inl h1
  right
  have hinv : IsprimeInv number number 3 :=
    ⟨rfl, le_rfl, by omega, fun d _ h3 hlt' => absurd hlt' (by omega), by omega⟩
  obtain ⟨hbelow, hstop⟩ := isprimeLoop_spec hodd hlt hinv
  set div := isprimeLoop number number 3
  have hrem : number % div ≠ 0 := by simpa [isprime] using h
  have hsq : number ≤ div * div := hstop.resolve_right hrem
  by_contra hnp
  -- the least factor is odd, at most the root, and hence a divisor that was tried
  have hdvd := Nat.minFac_dvd number
  have hmod : number % number.minFac = 0 := Nat.mod_eq_zero_of_dvd hdvd
  have hprime := Nat.minFac_prime h1
  have hroot : number.minFac * number.minFac ≤ number := by
    have := Nat.minFac_sq_le_self (by omega) hnp
    rwa [sq] at this
  have hfodd : number.minFac % 2 = 1 := by
    rcases Nat.even_or_odd number.minFac with heven | hfodd
    · have := (heven.two_dvd.trans hdvd)
      omega
    · exact Nat.odd_iff.mp hfodd
  have hf3 : 3 ≤ number.minFac := by
    have := hprime.two_le
    omega
  have hle : number.minFac ≤ div := Nat.mul_self_le_mul_self_iff.mp (hroot.trans hsq)
  rcases hle.lt_or_eq with hlt' | heq
  · exact hbelow _ hfodd hf3 hlt' hmod
  · exact hrem (heq ▸ hmod)

theorem hcreateLoop_spec {fuel : ℕ} (hodd : nel % 2 = 1) (h : hcreateLoop fuel nel = some size) :
    size % 2 = 1 ∧ isprime (size % 2 ^ 32) = true := by
  induction fuel generalizing nel with
  | zero => exact absurd h (by simp [hcreateLoop])
  | succ fuel ih =>
    simp only [hcreateLoop] at h
    split at h
    · next hp =>
      injection h with h
      exact ⟨h ▸ hodd, h ▸ hp⟩
    · exact ih (by omega) h

/-- The tables made by `hcreate_r`: empty, and of size 1 or of an odd prime size. -/
theorem hcreateR_cases {htab : Htab κ} (h : hcreateR nel = some htab) :
    ∃ size, htab = ⟨fun _ => default, size, 0⟩ ∧ (size = 1 ∨ WellSized size) := by
  obtain ⟨n, hn, rfl⟩ := Option.map_eq_some_iff.mp h
  obtain ⟨hsize, hp⟩ := hcreateLoop_spec (Nat.or_mod_two_eq_one.mpr (.inr rfl)) hn
  have hlt : n % 2 ^ 32 < 2 ^ 32 := Nat.mod_lt _ (by norm_num)
  refine ⟨n % 2 ^ 32, rfl, ?_⟩
  rcases prime_of_isprime (by omega) hlt hp with h1 | hprime
  · exact .inl h1
  · have := hprime.two_le
    exact .inr ⟨hprime, by omega, hlt⟩

/-- Below `2 ^ 31` no square wraps, and the loop stops in front of the number. -/
theorem isprimeLoop_lt (hlt : number < 2 ^ 31) (fuel : ℕ) {div : ℕ} (h3 : 3 ≤ div)
    (hdiv : div < number)
    (hsq : div < 2 ^ 16) : 3 ≤ isprimeLoop number fuel div ∧ isprimeLoop number fuel div < number := by
  induction fuel generalizing div with
  | zero => exact ⟨h3, hdiv⟩
  | succ fuel ih =>
    rw [isprimeLoop]
    split
    · next hgo =>
      have hle : div * 3 ≤ div * div := Nat.mul_le_mul_left div h3
      have hroot : div * div < 2 ^ 16 * 2 ^ 16 := Nat.mul_self_lt_mul_self hsq
      have hsmall : div < 46341 := by
        by_contra hbig
        have := Nat.mul_self_le_mul_self (not_lt.mp hbig)
        omega
      exact ih (by omega) (by omega) (by omega)
    · exact ⟨h3, hdiv⟩

/-- `isprime` accepts the primes. -/
theorem isprime_of_prime (hp : number.Prime) (h5 : 5 ≤ number) (hlt : number < 2 ^ 31) :
    isprime number = true := by
  obtain ⟨h3, hdiv⟩ := isprimeLoop_lt hlt number le_rfl (by omega) (by decide)
  rw [isprime, decide_eq_true_eq]
  intro hmod
  rcases (Nat.dvd_prime hp).mp (Nat.dvd_of_mod_eq_zero hmod) with h | h <;> omega

/-- The search stops at the latest at the first number that is accepted. -/
theorem exists_hcreateLoop (fuel : ℕ) {j : ℕ} (hnel : nel < 2 ^ 64)
    (hacc : isprime ((nel + 2 * j) % 2 ^ 32) = true) (hj : j < fuel) :
    ∃ i ≤ j, hcreateLoop fuel nel = some ((nel + 2 * i) % 2 ^ 64) := by
  induction fuel generalizing nel j with
  | zero => omega
  | succ fuel ih =>
    rw [hcreateLoop]
    split
    · exact ⟨0, Nat.zero_le _, by rw [Nat.mul_zero, Nat.add_zero, Nat.mod_eq_of_lt hnel]⟩
    · next hno =>
      obtain _ | j := j
      · exact absurd hacc hno
      rw [show (nel + 2 * (j + 1)) % 2 ^ 32 = ((nel + 2) % 2 ^ 64 + 2 * j) % 2 ^ 32 by omega] at hacc
      obtain ⟨i, hi, hloop⟩ := ih (Nat.mod_lt _ (by norm_num)) hacc (by omega)
      refine ⟨i + 1, by omega, hloop.trans (congrArg some ?_)⟩
      omega

theorem or_one_eq (n : ℕ) : n ||| 1 = 2 * (n / 2) + 1 := by
  have hhalf : (n ||| 1) / 2 = n / 2 := by
    rw [Nat.or_div_two]
    exact Nat.or_zero _
  have hodd : (n ||| 1) % 2 = 1 := Nat.or_mod_two_eq_one.mpr (.inr rfl)
  omega

/-- A prime that the search from `nel` reaches. -/
theorem exists_prime_of_request (h5 : 5 ≤ nel) (hlt : nel < 2 ^ 31) :
    ∃ q, q.Prime ∧ nel ≤ q ∧ q < 2 ^ 31 ∧ q ≤ 2 * nel := by
  rcases lt_or_ge nel (2 ^ 30) with hsmall | hbig
  · obtain ⟨q, hq, hgt, hle⟩ := Nat.exists_prime_lt_and_le_two_mul nel (by omega)
    exact ⟨q, hq, hgt.le, by omega, hle⟩
  · have hprime : (2147483647 : ℕ).Prime := lucas_lehmer_sufficiency 31 (by decide) (by norm_num)
    exact ⟨2147483647, hprime, by omega, by decide, by omega⟩

/-- `hcreate_r` makes a table of prime size. -/
theorem hcreateR_prime (h5 : 5 ≤ nel) (hlt : nel < 2 ^ 31) :
    ∃ htab : Htab κ, hcreateR nel = some htab ∧ htab.size.Prime ∧ 5 ≤ htab.size := by
  obtain ⟨q, hq, hle, hq31, hq2⟩ := exists_prime_of_request h5 hlt
  have hodd : q % 2 = 1 := hq.eq_two_or_odd.resolve_left (by omega)
  have hor := or_one_eq nel
  have hreach : (nel ||| 1) + 2 * ((q - (nel ||| 1)) / 2) = q := by omega
  obtain ⟨i, hi, hsize⟩ := exists_hcreateLoop (nel + 1) (j := (q - (nel ||| 1)) / 2)
      (show nel ||| 1 < 2 ^ 64 by omega)
    (by rw [hreach, Nat.mod_eq_of_lt (by omega)]; exact isprime_of_prime hq (by omega) hq31) (by omega)
  obtain ⟨htab, hnew, hmod⟩ : ∃ htab : Htab κ, hcreateR nel = some htab ∧
      htab.size = ((nel ||| 1) + 2 * i) % 2 ^ 64 % 2 ^ 32 :=
      ⟨_, by rw [hcreateR, hsize, Option.map_some], rfl⟩
  obtain ⟨size, rfl, hcase⟩ := hcreateR_cases hnew
  dsimp only at hmod
  exact ⟨_, hnew, (hcase.resolve_left (by omega)).prime, show 5 ≤ size by omega⟩

/-- A fresh table of prime size stores the empty map. -/
theorem rep_fresh (hs : WellSized size) :
    Rep (⟨fun _ => default, size, 0⟩ : Htab κ) fun _ => none := by
  have hcell : ∀ i, Htab.cells ⟨fun _ => (default : Slot κ), size, 0⟩ i = .empty := fun _ => rfl
  refine ⟨hs, ?_, ProbeOrder.represents_empty fun i _ => hcell i, ?_⟩
  · intro i _ key data hlive
    cases hlive
  · symm
    rw [ProbeOrder.liveCount, Finset.card_eq_zero, Finset.filter_eq_empty_iff]
    intro i _
    rw [hcell]
    simp [Cell.isLive]

/-! ### The probe sequence -/

/-- The probe sequence from `hval` in a table of size `p`: it stays in the table, meets every slot
once before it is back at `hval`, and the search along it ends after at most `p` probes. -/
structure ProbesAll (p hval : ℕ) : Prop where
  inside : ∀ k, 1 ≤ probe p (probeStep p hval) hval k ∧ probe p (probeStep p hval) hval k ≤ p
  once : ∀ i, 1 ≤ i → i ≤ p → ∃! k, k < p ∧ probe p (probeStep p hval) hval k = i
  back : probe p (probeStep p hval) hval p = hval
  ends : ∀ {κ : Type} (htab : Htab κ) (key : CStr), htab.size = p →
    locateLoop htab key hval (probeStep p hval) p hval ≠ .hang

/-- The probe ends, at a slot `1 … size`. -/
def Located.Inside (size : ℕ) : Located → Prop
  | .entry idx => 0 < idx ∧ idx ≤ size
  | .bucket idx => 0 < idx ∧ idx ≤ size
  | .hang => False

/-- The loop, in round `k + 1`. In round `size` it would be back at the first index. -/
theorem locateLoop_inside {htab : Htab κ} {hval s : ℕ}
    (hin : ∀ k, 1 ≤ probe htab.size s hval k ∧ probe htab.size s hval k ≤ htab.size)
    (hback : probe htab.size s hval htab.size = hval) (key : CStr) (fuel : ℕ) {k : ℕ} (hlt : k < htab.size)
    (hfuel : htab.size ≤ k + fuel) :
    (locateLoop htab key hval s fuel (probe htab.size s hval k)).Inside htab.size := by
  induction fuel generalizing k with
  | zero => omega
  | succ fuel ih =>
    rw [locateLoop, ← probe_succ]
    split_ifs with hend
    · exact hin _
    · exact hin _
    · refine ih (lt_of_le_of_ne hlt fun hlast => hend ?_) (by omega)
      rw [hlast]
      exact hback
    · exact hin _

/-- In a table of prime size the probe visits every slot, and the tables of `hcreate_r` have a prime
size. -/
theorem probesAll_and_hcreateR_prime :
    (∀ p hval, p.Prime → 5 ≤ p → 1 ≤ hval → hval < p → ProbesAll p hval) ∧ ∀ nel, 5 ≤ nel →
    nel < 2 ^ 31 → ∃ htab : Htab κ, hcreateR nel = some htab ∧ htab.size.Prime ∧ 5 ≤ htab.size := by
  refine ⟨?_, fun nel h5 hlt => hcreateR_prime h5 hlt⟩
  intro p hval hp h5 h1 hlt
  have : Fact p.Prime := ⟨hp⟩
  have hstep : 0 < probeStep p hval ∧ probeStep p hval < p := by
    have := Nat.mod_lt hval (show 0 < p - 2 by omega)
    rw [probeStep]
    omega
  have hin := probe_mem hstep.2 ⟨h1, hlt.le⟩
  have hback := probe_turn hstep.2 ⟨h1, hlt.le⟩
  refine ⟨hin, ?_, hback, ?_⟩
  · intro i hi hip
    obtain ⟨k, hk, hki⟩ := exists_probe_eq hstep ⟨h1, hlt.le⟩ ⟨hi, hip⟩
    refine ⟨k, ⟨hk, hki⟩, ?_⟩
    rintro l ⟨hl, hli⟩
    exact probe_inj hstep hl hk (hli.trans hki.symm)
  · rintro κ htab key rfl hhang
    have hinside := locateLoop_inside hin hback key htab.size (k := 0) (by omega) (by omega)
    exact (congrArg (Located.Inside htab.size) hhang).mp hinside

end UBoot.Env
