import UBoot.Common.Memory

/-!
# A list in blocks

A list cut into blocks of one size, counted from 1. The last block is shorter than the others and
may be empty, so that its length tells the end.
-/

namespace UBoot.Common

open List

variable {α : Type*} {l : List α} {n k : ℕ}

/-- The number of blocks. -/
def blockCount (l : List α) (n : ℕ) : ℕ := l.length / n + 1

/-- Block `k`. -/
def blockAt (l : List α) (n k : ℕ) : List α := (l.drop ((k - 1) * n)).take n

theorem length_blockAt (l : List α) (n k : ℕ) :
    (blockAt l n k).length = min n (l.length - (k - 1) * n) := by
  rw [blockAt, length_take, length_drop]

theorem mul_eq_sub_one_mul (n : ℕ) (hk : 1 ≤ k) : k * n = (k - 1) * n + n := by
  obtain _ | m := k
  · omega
  rw [Nat.add_sub_cancel, Nat.succ_mul]

theorem sub_one_mul_le (hle : k ≤ blockCount l n) : (k - 1) * n ≤ l.length := by
  exact Nat.le_trans (Nat.mul_le_mul_right _ (Nat.sub_le_of_le_add hle)) (Nat.div_mul_le_self _ _)

/-- Only the last block is short. -/
theorem length_blockAt_lt_iff (hn : 0 < n) (hk : 1 ≤ k) (hle : k ≤ blockCount l n) :
    (blockAt l n k).length < n ↔ k = blockCount l n := by
  have hdiv : l.length < k * n ↔ l.length / n < k := (Nat.div_lt_iff_lt_mul hn).symm
  have hmul := mul_eq_sub_one_mul n hk
  rw [length_blockAt]
  rw [blockCount] at hle ⊢
  omega

theorem end_of_blockAt (hk : 1 ≤ k) (hle : k ≤ blockCount l n) :
    (k - 1) * n + (blockAt l n k).length = min (k * n) l.length := by
  have hb := sub_one_mul_le hle
  have hmul := mul_eq_sub_one_mul n hk
  rw [length_blockAt]
  omega

theorem length_blockAt_of_lt (hn : 0 < n) (hk : 1 ≤ k) (hlt : k < blockCount l n) :
    (blockAt l n k).length = n := by
  have hshort := mt (length_blockAt_lt_iff hn hk (Nat.le_of_lt hlt)).mp (Nat.ne_of_lt hlt)
  have hlen := length_blockAt l n k
  omega

/-- Blocks that are all in their places are the list. -/
theorem contains_of_blocks {mem : ℕ → α} {a : ℕ} (hn : 0 < n)
    (h : ∀ k, 1 ≤ k → k ≤ blockCount l n → Contains mem (a + (k - 1) * n) (blockAt l n k)) :
    Contains mem a l := by
  rw [contains_iff]
  intro i hi
  -- the element `i` is in block `i / n + 1`
  have hdiv : i / n * n + i % n = i := by
    rw [mul_comm]
    exact Nat.div_add_mod i n
  have hmod := Nat.mod_lt i hn
  have hle : i / n + 1 ≤ blockCount l n := Nat.add_le_add_right (Nat.div_le_div_right (Nat.le_of_lt hi)) 1
  have hlen := length_blockAt l n (i / n + 1)
  rw [Nat.add_sub_cancel] at hlen
  have hblock := contains_iff.mp (h (i / n + 1) (Nat.le_add_left _ _) hle) (i % n) (by omega)
  rw [Nat.add_assoc] at hblock
  simpa [blockAt, hdiv] using hblock

/-- The first `k` blocks. -/
def firstBlocks (l : List α) (n k : ℕ) : List (List α) :=
  (List.range k).map fun i => blockAt l n (i + 1)

@[simp] theorem length_firstBlocks (l : List α) (n k : ℕ) : (firstBlocks l n k).length = k := by
  simp [firstBlocks]

theorem firstBlocks_succ (l : List α) (n k : ℕ) :
    firstBlocks l n (k + 1) = firstBlocks l n k ++ [blockAt l n (k + 1)] := by
  rw [firstBlocks, range_succ, map_append]
  rfl

/-- All blocks but the last one are full. -/
theorem length_of_mem_firstBlocks (hn : 0 < n) (hlt : k < blockCount l n) {d : List α}
    (hd : d ∈ firstBlocks l n k) : d.length = n := by
  obtain ⟨i, hi, rfl⟩ := mem_map.mp hd
  have hik := mem_range.mp hi
  exact length_blockAt_of_lt hn (Nat.le_add_left _ _) (by omega)

theorem blockAt_load (mem : ℕ → α) (a m n k : ℕ) :
    blockAt (load mem a m) n k = load mem (a + (k - 1) * n) (min n (m - (k - 1) * n)) := by
  rw [blockAt, drop_load, take_load]

end UBoot.Common
