import Mathlib.Algebra.Group.Nat.Defs
import Mathlib.Logic.Function.Basic
import Mathlib.Order.Lattice

/-!
# The size of the memory

Reference: `common/memsize.c::get_ram_size`.

A cell at each power of two is saved and written to, and the cells that still hold what was written
are there. With less memory than asked for, the cells behind its end are the first one, which is
then found changed.
-/

namespace UBoot.Memory

open Function

/-- The memory in units of a `long`, and the part of `save` below `i`, with the last value first. -/
structure Probe where
  mem : ℕ → ℤ
  save : List ℤ

variable (real maxsize : ℕ)

/-- Where an access to `base + cnt` goes in a memory of `real` bytes. -/
def cellOf (cnt : ℕ) : ℕ := cnt % (real / 8)

/-- The loop that saves the cells and writes to them. There is room for 32 values. -/
def saveLoop (cnt : ℕ) (p : Probe) : Option Probe :=
  if cnt = 0 then some p
  else if p.save.length < 32 then
    saveLoop (cnt / 2) ⟨update p.mem (cellOf real cnt) (~~~cnt), p.mem (cellOf real cnt) :: p.save⟩
  else none
termination_by cnt

/-- The loop that only restores the cells. -/
def restoreLoop : List ℤ → ℕ → (ℕ → ℤ) → Option (ℕ → ℤ)
  | [], cnt, mem => if cnt < maxsize / 8 then none else some mem
  | v :: save, cnt, mem =>
    if cnt < maxsize / 8 then restoreLoop save (cnt * 2) (update mem (cellOf real cnt) v) else some mem

/-- The loop that restores the cells and looks for one that has changed. -/
def sizeLoop : List ℤ → ℕ → (ℕ → ℤ) → Option (ℕ × (ℕ → ℤ))
  | [], cnt, mem => if cnt < maxsize / 8 then none else some (maxsize, mem)
  | v :: save, cnt, mem =>
    if cnt < maxsize / 8 then
      let mem' := update mem (cellOf real cnt) v
      if mem (cellOf real cnt) ≠ ~~~(cnt : ℤ) then
        (restoreLoop real maxsize save (cnt * 2) mem').map (cnt * 8, ·)
      else sizeLoop save (cnt * 2) mem'
    else some (maxsize, mem)

/-- `get_ram_size`: the size and the memory afterwards. -/
def getRamSize (mem : ℕ → ℤ) : Option (ℕ × (ℕ → ℤ)) :=
  (saveLoop real (maxsize / 8 / 2) ⟨mem, []⟩).bind fun p =>
    if p.save.length < 32 then
      let base := cellOf real 0
      let mem := update p.mem base 0
      if mem base ≠ 0 then (restoreLoop real maxsize p.save 1 (update mem base (p.mem base))).map (0, ·)
      else sizeLoop real maxsize p.save 1 mem
    else none

variable {real maxsize} {m r k : ℕ} {p q : Probe}

theorem saveLoop_two_pow (k : ℕ) : saveLoop real (2 ^ (k + 1) / 2) p =
    if p.save.length < 32 then saveLoop real (2 ^ k / 2)
      ⟨update p.mem (cellOf real (2 ^ k)) (~~~(2 ^ k : ℕ)), p.mem (cellOf real (2 ^ k)) :: p.save⟩
    else none := by
  rw [pow_succ, Nat.mul_div_cancel _ Nat.two_pos, saveLoop, if_neg (Nat.two_pow_pos k).ne']

section

variable {R M : ℕ} (hreal : real / 8 = 2 ^ R) (hmax : maxsize / 8 = 2 ^ M)

include hreal

theorem cellOf_two_pow (k : ℕ) : cellOf real (2 ^ k) = if k < R then 2 ^ k else 0 := by
  rw [cellOf, hreal]
  split
  · next h => exact Nat.mod_eq_of_lt (Nat.pow_lt_pow_right (by decide) h)
  · next h => exact Nat.mod_eq_zero_of_dvd (Nat.pow_dvd_pow 2 (Nat.le_of_not_lt h))

include hmax

/-- The cells below `2 ^ k` are restored, and found unchanged up to the end of the memory. -/
theorem saveLoop_spec (hk : k ≤ M) (hp : p.save.length ≤ 32) :
    if p.save.length + k ≤ 32 then
      ∃ q, saveLoop real (2 ^ k / 2) p = some q ∧ q.save.length = p.save.length + k ∧
        sizeLoop real maxsize q.save 1 (update q.mem 0 0) =
          if R < k then (restoreLoop real maxsize p.save (2 ^ k) p.mem).map (2 ^ R * 8, ·)
          else sizeLoop real maxsize p.save (2 ^ k) (update p.mem 0 0)
    else saveLoop real (2 ^ k / 2) p = none := by
  induction k generalizing p with
  | zero =>
    rw [Nat.add_zero, if_pos hp]
    exact ⟨p, by rw [Nat.pow_zero, saveLoop, if_pos rfl], rfl, rfl⟩
  | succ k ih =>
    have hcell := cellOf_two_pow hreal k
    have hlt : 2 ^ k < maxsize / 8 := by
      rw [hmax]
      exact Nat.pow_lt_pow_right (by decide) hk
    by_cases hfull : p.save.length < 32
    · have hrest := ih (p := ⟨update p.mem (cellOf real (2 ^ k)) (~~~(2 ^ k : ℕ)),
        p.mem (cellOf real (2 ^ k)) :: p.save⟩) (by omega) hfull
      rw [List.length_cons, add_assoc, add_comm 1] at hrest
      rw [saveLoop_two_pow, if_pos hfull]
      split at hrest
      · rw [if_pos ‹_›]
        obtain ⟨q, hq, hlen, hsize⟩ := hrest
        refine ⟨q, hq, hlen, hsize.trans ?_⟩
        rw [pow_succ]
        by_cases hR : R < k
        · rw [if_pos hR, if_pos (by omega), restoreLoop, if_pos hlt, update_idem, update_eq_self]
        rw [if_neg hR, sizeLoop, if_pos hlt]
        dsimp only
        by_cases heq : R = k
        · -- the first cell is read
          have hval : 0 ≠ ~~~((2 ^ k : ℕ) : ℤ) := (Int.negSucc_ne_zero _).symm
          rw [if_neg (by omega)] at hcell
          rw [hcell, update_self, if_pos hval, if_pos (by omega), update_idem, update_idem,
            update_eq_self, heq]
        · rw [if_pos (by omega)] at hcell
          have hne : 2 ^ k ≠ 0 := (Nat.two_pow_pos k).ne'
          rw [hcell, update_of_ne hne, update_self, if_neg (not_not.mpr rfl), if_neg (by omega),
            update_comm hne, update_idem, update_comm hne.symm, update_eq_self]
      · rwa [if_neg ‹_›]
    · rw [if_neg (by omega), saveLoop_two_pow, if_neg hfull]

end

/-- The size is right and the cells are restored, but the first one is not if all of the memory is
there. -/
theorem getRamSize_eq (hr : 3 ≤ r) (hle : r ≤ m) (mem : ℕ → ℤ) :
    getRamSize (2 ^ r) (2 ^ m) mem = if m ≤ 34 then some
    (2 ^ r, if r < m then mem else update mem 0 0) else none := by
  obtain ⟨R, rfl⟩ := Nat.exists_eq_add_of_le' hr
  obtain ⟨M, rfl⟩ := Nat.exists_eq_add_of_le' (hr.trans hle)
  have hreal : 2 ^ (R + 3) / 8 = 2 ^ R := by rw [Nat.pow_add, Nat.mul_div_cancel _ (by decide)]
  have hmax : 2 ^ (M + 3) / 8 = 2 ^ M := by rw [Nat.pow_add, Nat.mul_div_cancel _ (by decide)]
  have hspec := saveLoop_spec hreal hmax le_rfl (p := ⟨mem, []⟩) (by simp)
  rw [List.length_nil, Nat.zero_add] at hspec
  rw [getRamSize, hmax]
  by_cases hM : M ≤ 32
  · rw [if_pos hM] at hspec
    obtain ⟨q, hq, hlen, hsize⟩ := hspec
    rw [hq, Option.bind_some, hlen]
    by_cases hlt : M < 32
    · have hbase : cellOf (2 ^ (R + 3)) 0 = 0 := Nat.zero_mod _
      rw [if_pos hlt, hbase]
      dsimp only
      rw [update_self, if_neg (not_not.mpr rfl), hsize, if_pos (show M + 3 ≤ 34 by omega)]
      split
      · rw [restoreLoop, hmax, if_neg (lt_irrefl _), if_pos (by omega), pow_add]
        rfl
      · obtain rfl : R = M := by omega
        simp only [sizeLoop, hmax, if_neg (lt_irrefl _)]
    · rw [if_neg hlt, if_neg (by omega)]
  · rw [if_neg hM] at hspec
    rw [hspec, Option.bind_none, if_neg (by omega)]

section

variable (hr : 3 ≤ r) (hle : r ≤ m) (mem : ℕ → ℤ)

include hr hle

/-- The real size is returned unless more values are saved than there is room for. -/
theorem getRamSize_returns_iff : (getRamSize (2 ^ r) (2 ^ m) mem).map Prod.fst = some
    (2 ^ r) ↔ m ≤ 34 := by
  rw [getRamSize_eq hr hle]
  split <;> simp [*]

/-- Every cell is restored unless all of the memory is there and its first cell was not zero. -/
theorem getRamSize_restores_iff :
    (getRamSize (2 ^ r) (2 ^ m) mem).map Prod.snd = some mem ↔ m ≤ 34 ∧ (r < m ∨ mem 0 = 0) := by
  rw [getRamSize_eq hr hle]
  by_cases hm : m ≤ 34
  · by_cases hlt : r < m
    · simp [hlt]
    · simp [hlt, eq_comm]
  · simp [hm]

end

/-- 1 GiB is found in a range of 4 GiB. -/
theorem getRamSize_returns_gib : (getRamSize (2 ^ 30) (2 ^ 32) fun _ => 7).map Prod.fst = some
    (2 ^ 30) :=
  (getRamSize_returns_iff (by decide) (by decide) _).mpr (by decide)

theorem getRamSize_restores_gib : (getRamSize (2 ^ 30) (2 ^ 32) fun _ => 7).map
    Prod.snd = some fun _ => 7 :=
  (getRamSize_restores_iff (by decide) (by decide) _).mpr (by decide)

/-- A range of 32 GiB has 33 cells to save. -/
theorem not_getRamSize_returns : (getRamSize (2 ^ 30) (2 ^ 35) fun _ => 7).map Prod.fst ≠ some
    (2 ^ 30) := by
  rw [getRamSize_eq (by decide) (by decide)]
  exact nofun

/-- The first cell of a full gigabyte is left at zero. -/
theorem not_getRamSize_restores : (getRamSize (2 ^ 30) (2 ^ 30) fun _ => 7).map Prod.snd ≠
    some fun _ => 7 := by
  rw [getRamSize_eq (by decide) (by decide)]
  intro h
  cases congrFun (Option.some.inj h) 0

end UBoot.Memory
