import Mathlib.Algebra.Order.Ring.Nat
import UBoot.Common.Memory

/-!
# Writing to a partition

Reference: `fs/ext4/ext4_common.c`, `put_ext4`.

A start inside a sector is handled by reading, changing and writing that sector, and only the whole
sectors of what begins at a sector are written.
-/

namespace UBoot.Fs

open UBoot.Common List

/-- A partition of a block device, in sectors of `2 ^ log2blksz` bytes. -/
structure ExtPart where
  log2blksz : ℕ
  partOffset : ℕ
  totalSect : ℕ
  lt : partOffset + totalSect < 2 ^ 64

/-- `dev_desc->blksz`. -/
def ExtPart.blksz (p : ExtPart) : ℕ := 2 ^ p.log2blksz

section Put

variable (p : ExtPart) (off : ℕ) (disk : ℕ → UInt8)

/-- Read a sector, copy the buffer into it, and write it. What is copied behind the sector is not
written. -/
def modifySector (startblock remainder : ℕ) (buf : List UInt8) : ℕ → UInt8 :=
  let secBuf := fun i => disk (startblock * p.blksz + i)
  store disk (startblock * p.blksz) (load (store secBuf remainder buf) 0 p.blksz)

/-- `put_ext4` for a buffer of less than 4 GiB, on a device that can be read. -/
def putExt4 (buf : List UInt8) : ℕ → UInt8 :=
  let startblock := off / p.blksz + p.partOffset
  let remainder := off % p.blksz
  if p.partOffset + p.totalSect < startblock + buf.length / p.blksz then disk
  else if remainder ≠ 0 then modifySector p disk startblock remainder buf
  else if buf.length / p.blksz ≠ 0 then
    store disk (startblock * p.blksz) (buf.take (buf.length / p.blksz * p.blksz))
  else modifySector p disk startblock 0 buf

/-- The bytes from `off` on become those of the buffer, and no others change. -/
def PutsExactly (size : ℕ) : Prop :=
  ∀ disk buf, buf.length = size → putExt4 p off disk buf = store disk (p.partOffset * p.blksz + off) buf

variable {p off disk} {size startblock remainder : ℕ} {buf : List UInt8}

/-- A change inside a sector. -/
theorem modifySector_eq (h : remainder + buf.length ≤ p.blksz) :
    modifySector p disk startblock remainder buf = store disk (startblock * p.blksz + remainder) buf := by
  funext i
  by_cases hi : startblock * p.blksz ≤ i ∧ i < startblock * p.blksz + p.blksz
  · obtain ⟨j, rfl⟩ := Nat.exists_eq_add_of_le hi.1
    rw [modifySector, store_load_add _ _ _ (by omega), zero_add, store, store,
      show startblock * p.blksz + j - (startblock * p.blksz + remainder) = j - remainder by omega]
    simp only [Nat.add_le_add_iff_left]
  · rw [modifySector, store_of_outside _ _ _ (by rw [length_load]; omega),
      store_of_outside _ _ _ (by omega)]

/-- `put_ext4` is right for a part of one sector, and for whole sectors from the start of a sector
on. -/
theorem putsExactly_iff (hin : off + size ≤ p.totalSect * p.blksz) :
    PutsExactly p off size ↔
      if off % p.blksz = 0 then size < p.blksz ∨ p.blksz ∣ size else off % p.blksz + size ≤ p.blksz := by
  have hroom : off / p.blksz + size / p.blksz ≤ p.totalSect :=
    Nat.div_add_div_le_add_div.trans (Nat.div_le_of_le_mul (by rwa [mul_comm]))
  -- a byte of the range that is not written shows on a disk of zeros
  have hones : ∀ a, ∀ i < size, store (fun _ => 0) a (replicate size (1 : UInt8)) (a + i) = 1 := by
    intro a i hi
    simp [store, hi]
  have hoff := Nat.div_add_mod' off p.blksz
  have hmod : off % p.blksz < p.blksz := Nat.mod_lt off (Nat.two_pow_pos _)
  rw [PutsExactly, show p.partOffset * p.blksz + off = (off / p.blksz + p.partOffset) *
    p.blksz + off % p.blksz by
    rw [add_mul]; omega]
  simp only [putExt4]
  generalize hstart : off / p.blksz + p.partOffset = startblock
  by_cases hr : off % p.blksz = 0
  · rw [if_pos hr, hr, add_zero]
    have hle := Nat.div_mul_le_self size p.blksz
    constructor
    · intro h
      by_contra hno
      rw [not_or] at hno
      have hone := hones (startblock * p.blksz) (size / p.blksz * p.blksz)
        (lt_of_le_of_ne hle fun heq => hno.2 (heq ▸ Nat.dvd_mul_left ..))
      rw [← h _ _ length_replicate, length_replicate, if_neg (by omega), if_neg (not_not.mpr rfl),
        if_pos fun h0 => hno.1 (Nat.lt_of_div_eq_zero (by omega) h0),
        store_of_outside _ _ _ (.inr (by rw [length_take]; omega))] at hone
      cases hone
    · rintro h disk buf rfl
      rw [if_neg (by omega), if_neg (not_not.mpr rfl)]
      split
      · next hcount =>
        rw [Nat.div_mul_cancel (h.resolve_left fun hlt => hcount (Nat.div_eq_of_lt hlt)), take_length]
      · next hcount =>
        have hlt := Nat.lt_of_div_eq_zero (by omega) (not_not.mp hcount)
        rw [modifySector_eq (by omega), add_zero]
  · rw [if_neg hr]
    constructor
    · intro h
      by_contra hlt
      have hone := hones (startblock * p.blksz + off % p.blksz) (p.blksz - off % p.blksz) (by omega)
      rw [← h _ _ length_replicate, length_replicate, if_neg (by omega), if_pos hr, modifySector,
        store_of_outside _ _ _ (.inr (by rw [length_load]; omega))] at hone
      cases hone
    · rintro hle disk buf rfl
      rw [if_neg (by omega), if_pos hr, modifySector_eq hle]

end Put

/-- A partition of four sectors. -/
def fourSectors : ExtPart := ⟨9, 0, 4, by decide⟩

theorem putsExactly_sector : PutsExactly fourSectors 512 512 :=
  (putsExactly_iff (by decide)).mpr (by decide)

/-- Of two bytes at the end of a sector only the first is written. -/
theorem not_putsExactly_crossing : ¬ PutsExactly fourSectors 511 2 := fun h =>
  absurd (congrFun (h (fun _ => 0) [1, 1] rfl) 512) (by decide +kernel)

end UBoot.Fs
