import UBoot.Mmc.Partitions
import Mathlib.Algebra.BigOperators.Intervals
import Mathlib.Data.Nat.ModEq

/-!
# The partition table on the device

`mmc_write_partition_tbl` stores the partition configuration at the start of the partition
`reserved`, `mmc_read_partition_tbl` reads it back, and `mmc_device_init` writes it anew when what
is stored is not accepted or differs from the configuration. Both directions move the structure as
whole blocks and one last block through a buffer.
-/

namespace UBoot.Mmc

open UBoot.Common List

section

variable (fmt mem : ℕ → UInt8)

/-! ## The checksum -/

/-- A `u32` of the memory. -/
def wordAt (a : ℕ) : ℕ := ofLe (load mem a 4)

/-- The inner loop of `mmc_partition_tbl_checksum_calc`: the words from `p` on. -/
def addWords : ℕ → ℕ → ℕ → ℕ
  | 0, _, checksum => checksum
  | j + 1, p, checksum => addWords j (p + 4) ((checksum + wordAt mem p) % 2 ^ 32)

/-- The outer loop, for the entries that are left. Every round starts at `part` again. -/
def addEntries (part : ℕ) : ℕ → ℕ → ℕ
  | 0, checksum => checksum
  | i + 1, checksum => addEntries part i (addWords mem (partitionSz / 4) part checksum)

/-- `mmc_partition_tbl_checksum_calc` of the table at `part`, as an unsigned number. -/
def mmcPartitionTblChecksumCalc (part partNum : ℕ) : ℕ :=
  addEntries mem part partNum 0

/-! ## The stored structure -/

/-- `MMC_PARTITIONS_MAGIC` in an array of four characters. -/
def mmcPartitionsMagic : List UInt8 := nameBytes "MPT" ++ [0]

/-- The part of a character array that `strncmp` compares. -/
def cstrn (n : ℕ) (l : List UInt8) : List UInt8 := (l.take n).takeWhile (· ≠ 0)

/-- `sizeof(struct mmc_partitions_fmt)`. -/
def ptFmtSz : ℕ := 1304

/-- `pt_fmt->part_num`, as an unsigned number. -/
def ptPartNum : ℕ := wordAt fmt 16

/-- `pt_fmt->checksum`, as an unsigned number. -/
def ptChecksum : ℕ := wordAt fmt 20

/-- The offset of `pt_fmt->partitions`. -/
def ptPartitions : ℕ := 24

/-- `struct mmc_partition_config` in memory: `partitions` are the bytes of all `MAX_MMC_PART_NUM`
entries, the padding of the entries included. -/
structure PartitionImage where
  version : List UInt8
  partNum : ℕ
  partitions : List UInt8
  length_version : version.length = 12
  length_partitions : partitions.length = maxMmcPartNum * partitionSz

/-- `partitions[i]`. -/
def PartitionImage.entry (cfg : PartitionImage) (i : ℕ) : Partition :=
  partTableEntry (ofList cfg.partitions 0) i

/-- `find_mmc_partition_by_name`. -/
def findMmcPartitionByName (cfg : PartitionImage) (name : List UInt8) : Option Partition :=
  findPartitionByName name ((List.range cfg.partNum).map cfg.entry)

/-- `*pt_fmt` as `mmc_write_partition_tbl` fills it in. -/
def ptFmt (cfg : PartitionImage) : List UInt8 :=
  mmcPartitionsMagic ++ cfg.version ++ leBytes 4 cfg.partNum ++
    leBytes 4 (mmcPartitionTblChecksumCalc (ofList cfg.partitions 0) 0 cfg.partNum) ++ cfg.partitions

end

/-! ## The device -/

/-- What `mmc_bread` and `mmc_bwrite` know of the device. `readOk` says which transfers the device
answers. -/
structure BlockDev where
  readBlLen : ℕ
  lba : ℕ
  accessLegal : ℕ → ℕ → Bool
  readOk : ℕ → ℕ → Bool
  readBlLen_pos : 0 < readBlLen

section

variable (d : BlockDev) (kmalloc : Bool) (sent : ℕ) (cfg : PartitionImage) (disk : ℕ → UInt8)
  (blk : ℤ) (fmt : ℕ → UInt8) (start cnt : ℕ) (src : List UInt8)

/-- The tests on a range of blocks before anything is transferred. -/
def BlockDev.inRange : Bool :=
  cnt ≠ 0 && (start + cnt) % 2 ^ 64 ≤ d.lba && d.accessLegal start cnt

/-- `mmc_bread`; `none` is the return value 0. -/
def BlockDev.bread : Option (List UInt8) :=
  if d.inRange start cnt && d.readOk start cnt then
    some (load disk (start * d.readBlLen) (cnt * d.readBlLen))
  else none

/-- `mmc_bwrite`, and what is on the device then. Of the blocks that are sent, `sent` reach the
device. -/
def BlockDev.bwrite : ℕ × (ℕ → UInt8) :=
  (if d.inRange start cnt && cnt ≤ sent then cnt else 0,
    store disk (start * d.readBlLen) (src.take (min sent cnt * d.readBlLen)))

/-- An `int` as the `lbaint_t` it is passed as. -/
def lbaOf : ℕ := (blk % 2 ^ 64).toNat

/-- `start_blk`, an `int`. -/
def startBlk (pp : Partition) : ℤ := Int.bmod (pp.offset / d.readBlLen : ℕ) (2 ^ 32)

/-- `blk_cnt`, the whole blocks of the structure. -/
def BlockDev.blkCnt : ℕ := ptFmtSz / d.readBlLen

/-- `start_blk` behind the whole blocks. -/
def nextBlk (pp : Partition) : ℤ := Int.bmod (startBlk d pp + d.blkCnt) (2 ^ 32)

/-! ## Writing -/

/-- `buf`, what is left of the structure in a block of zeros. -/
def lastBlock : List UInt8 :=
  src ++ List.replicate (d.readBlLen - src.length) 0

/-- `mmc_read_partition_tbl`, the last block: `size` bytes to `pt_fmt + dst`. -/
def readLast (dst size : ℕ) : Option (ℕ → UInt8) :=
  if 0 < size then (BlockDev.bread d disk (lbaOf blk) 1).map fun buf => store fmt dst (buf.take size)
  else some fmt

/-- The transfers of `mmc_read_partition_tbl`: `*pt_fmt`, or `none` when one of them fails. -/
def readFmt : Option (ℕ → UInt8) :=
  match findMmcPartitionByName cfg (nameBytes "reserved") with
  | none => none
  | some pp =>
    if d.readBlLen ≤ ptFmtSz then
      match BlockDev.bread d disk (lbaOf (startBlk d pp)) d.blkCnt with
      | none => none
      | some bytes => readLast d disk (nextBlk d pp) (store (fun _ => 0) 0 bytes)
          (d.blkCnt * d.readBlLen) (ptFmtSz - d.blkCnt * d.readBlLen)
    else readLast d disk (startBlk d pp) (fun _ => 0) 0 ptFmtSz

/-- The test on what was read. A negative `part_num` is above `MAX_MMC_PART_NUM` as an unsigned
number. -/
def ptValid : Bool :=
  cstrn 4 (load fmt 0 4) == cstrn 4 mmcPartitionsMagic && 0 < ptPartNum fmt && ptPartNum
    fmt ≤ maxMmcPartNum && ptChecksum fmt == mmcPartitionTblChecksumCalc fmt ptPartitions (ptPartNum fmt)

/-- `mmc_read_partition_tbl`: `*pt_fmt`, or the error. -/
def mmcReadPartitionTbl : Except ℤ (ℕ → UInt8) :=
  if !kmalloc then .error (-12)
  else
    match readFmt d cfg disk with
    | none => .error (-1)
    | some fmt => if ptValid fmt then .ok fmt else .error (-1)

/-! ## Verification at boot -/

end

variable {checksum part part' w a j i start cnt ret sentLast : ℕ} {blk b : ℤ}

/-! ## What the checksum covers -/

theorem addWords_eq (mem : ℕ → UInt8) (j p : ℕ) (h : checksum < 2 ^ 32) :
    addWords mem j p checksum = (checksum + ∑ k ∈ Finset.range j, wordAt mem (p + 4 * k)) % 2 ^ 32 := by
  induction j generalizing p checksum with
  | zero => rw [addWords, Finset.sum_range_zero, add_zero, Nat.mod_eq_of_lt h]
  | succ j ih =>
    rw [addWords, ih _ (Nat.mod_lt _ (by decide)), Nat.mod_add_mod, Finset.sum_range_succ']
    have hshift : ∀ k, p + 4 + 4 * k = p + 4 * (k + 1) := fun k => by omega
    simp only [hshift, mul_zero, add_zero]
    congr 1
    omega

/-- The sum of the words of the entry at `part`. -/
def entrySum (mem : ℕ → UInt8) (part : ℕ) : ℕ :=
  ∑ k ∈ Finset.range 10, wordAt mem (part + 4 * k)

theorem addEntries_eq (mem : ℕ → UInt8) (part n : ℕ) (h : checksum < 2 ^ 32) :
    addEntries mem part n checksum = (checksum + n * entrySum mem part) % 2 ^ 32 := by
  induction n generalizing checksum with
  | zero => rw [addEntries, zero_mul, add_zero, Nat.mod_eq_of_lt h]
  | succ n ih =>
    have hround : addWords mem (partitionSz / 4) part checksum = (checksum + entrySum mem part) % 2 ^ 32 :=
      addWords_eq mem 10 part h
    rw [addEntries, hround, ih (Nat.mod_lt _ (by decide)), Nat.mod_add_mod, Nat.succ_mul, add_assoc,
      add_comm (entrySum mem part)]

/-- The checksum counts the first entry once for every entry of the table. -/
theorem mmcPartitionTblChecksumCalc_eq (mem : ℕ → UInt8) (part n : ℕ) :
    mmcPartitionTblChecksumCalc mem part n = n * entrySum mem part % 2 ^ 32 := by
  rw [mmcPartitionTblChecksumCalc, addEntries_eq _ _ _ (by decide), zero_add]

variable {mem mem' fmt : ℕ → UInt8} {sent : ℕ} {src : List UInt8}

theorem entrySum_congr
    (h : ∀ a < partitionSz, mem (part + a) = mem' (part' + a)) :
    entrySum mem part = entrySum mem' part' := by
  refine Finset.sum_congr rfl fun k hk => congrArg ofLe (load_congr fun b hb => ?_)
  have hk := Finset.mem_range.mp hk
  rw [add_assoc, add_assoc]
  exact h _ (by rw [partitionSz]; omega)

theorem checksum_congr (n : ℕ) (h : ∀ a < partitionSz, mem (part + a) = mem' (part' + a)) :
    mmcPartitionTblChecksumCalc mem part n = mmcPartitionTblChecksumCalc mem' part' n := by
  simp only [mmcPartitionTblChecksumCalc_eq, entrySum_congr h]

/-- The stored structure with word `j` of entry `i` replaced. -/
def damage (fmt : ℕ → UInt8) (i j w : ℕ) : ℕ → UInt8 :=
  store fmt (ptPartitions + partitionSz * i + 4 * j) (leBytes 4 w)

/-- The words beside it. -/
theorem wordAt_store_of_disjoint (mem : ℕ → UInt8) {b : ℕ} (l : List UInt8)
    (h : a + 4 ≤ b ∨ b + l.length ≤ a) : wordAt (store mem b l) a = wordAt mem a :=
  congrArg ofLe (load_congr fun k hk => store_of_outside _ _ _ (by omega))

section

variable (fmt)

/-- Damage to the first entry changes its sum by the difference of the words. -/
theorem entrySum_damage_zero (hj : j < 10) (hw : w < 2 ^ 32) :
    entrySum (damage fmt 0 j w) ptPartitions + wordAt fmt (ptPartitions + 4 * j) = entrySum fmt
    ptPartitions + w := by
  have hmem : j ∈ Finset.range 10 := Finset.mem_range.mpr hj
  have hrest : ∑ k ∈ (Finset.range 10).erase j, wordAt (damage fmt 0 j w) (ptPartitions + 4 * k) =
      ∑ k ∈ (Finset.range 10).erase j, wordAt fmt (ptPartitions + 4 * k) :=
    Finset.sum_congr rfl fun k hk => by
      have hne := Finset.ne_of_mem_erase hk
      exact wordAt_store_of_disjoint _ _ (by rw [length_leBytes]; omega)
  rw [entrySum, entrySum, ← Finset.add_sum_erase _ _ hmem, ← Finset.add_sum_erase _ _ hmem, hrest, damage,
    mul_zero, add_zero, show wordAt (store fmt _ (leBytes 4 w)) _ = w from
    (contains_store ..).ofLe_load hw]
  omega

theorem checksum_damage_zero_iff (n : ℕ) (hj : j < 10) (hw : w < 2 ^ 32) :
    mmcPartitionTblChecksumCalc (damage fmt 0 j w) ptPartitions n = mmcPartitionTblChecksumCalc
      fmt ptPartitions n ↔ (2 ^ 32 : ℤ) ∣ n * ((w : ℤ) - wordAt fmt (ptPartitions + 4 * j)) := by
  have hsum := entrySum_damage_zero fmt hj hw
  have hdiff : ((n * entrySum (damage fmt 0 j w) ptPartitions : ℕ) : ℤ) -
      (n * entrySum fmt ptPartitions : ℕ) = n * ((w : ℤ) - wordAt fmt (ptPartitions + 4 * j)) := by
    generalize entrySum (damage fmt 0 j w) ptPartitions = x at hsum
    generalize entrySum fmt ptPartitions = y at hsum
    have hxy : (x : ℤ) - y = (w : ℤ) - wordAt fmt (ptPartitions + 4 * j) := by omega
    rw [Int.natCast_mul, Int.natCast_mul, ← Int.mul_sub, hxy]
  simp only [mmcPartitionTblChecksumCalc_eq, ← hdiff]
  exact Nat.ModEq.comm.trans Nat.modEq_iff_dvd

end

/-- Replacing word `j` of entry `i` in a table of `n` entries is noticed: the checksum is another
one, and where the structure was accepted the damaged one is refused. -/
structure Detects (fmt : ℕ → UInt8) (n i j w : ℕ) : Prop where
  changes : mmcPartitionTblChecksumCalc (damage fmt i j w) ptPartitions n ≠
    mmcPartitionTblChecksumCalc fmt ptPartitions n
  rejects : ptValid fmt → ptPartNum fmt = n → ∀ d cfg disk, readFmt d cfg disk = some
    (damage fmt i j w) → mmcReadPartitionTbl d true cfg disk = .error (-1)

theorem ptValid_iff : ptValid fmt ↔
    cstrn 4 (load fmt 0 4) = cstrn 4 mmcPartitionsMagic ∧ 0 < ptPartNum fmt ∧
      ptPartNum fmt ≤ maxMmcPartNum ∧ ptChecksum fmt = mmcPartitionTblChecksumCalc fmt ptPartitions
      (ptPartNum fmt) := by
  simp [ptValid, and_assoc]

/-- Damage to the entries leaves the fields in front of them alone. -/
theorem wordAt_damage (fmt : ℕ → UInt8) (i j w : ℕ) (ha : a + 4 ≤ ptPartitions) :
    wordAt (damage fmt i j w) a = wordAt fmt a :=
  wordAt_store_of_disjoint _ _ (.inl (by omega))

theorem mmcReadPartitionTbl_of_readFmt {d : BlockDev} {cfg : PartitionImage} {disk : ℕ → UInt8}
    (h : readFmt d cfg disk = some fmt) :
    mmcReadPartitionTbl d true cfg disk = if ptValid fmt then .ok fmt else .error (-1) := by
  rw [mmcReadPartitionTbl, h, Bool.not_true, if_neg Bool.false_ne_true]

theorem not_ptValid_damage (hvalid : ptValid fmt)
    (hne : mmcPartitionTblChecksumCalc (damage fmt i j w) ptPartitions (ptPartNum fmt) ≠
      mmcPartitionTblChecksumCalc fmt ptPartitions (ptPartNum fmt)) : ¬ ptValid (damage fmt i j w) := by
  intro hdamaged
  have hsum := (ptValid_iff.mp hdamaged).2.2.2
  have hnum : ptPartNum (damage fmt i j w) = ptPartNum fmt := wordAt_damage fmt i j w (by decide)
  have hfield : ptChecksum (damage fmt i j w) = ptChecksum fmt := wordAt_damage fmt i j w (by decide)
  rw [hnum, hfield, (ptValid_iff.mp hvalid).2.2.2] at hsum
  exact hne hsum.symm

theorem not_detects_succ (fmt : ℕ → UInt8) (n i j w : ℕ) : ¬ Detects fmt n (i + 1) j w := fun h =>
  h.changes (checksum_congr n fun a ha => store_of_outside _ _ _ (by rw [partitionSz] at ha ⊢; omega))

/-- A changed word is noticed in the first entry only, and there unless the number of entries times
the difference is a multiple of `2 ^ 32`. -/
theorem detects_iff (fmt : ℕ → UInt8) (n i : ℕ) {j w : ℕ} (hj : j < 10) (hw : w < 2 ^ 32) :
    Detects fmt n i j w ↔
      i = 0 ∧ ¬ (2 ^ 32 : ℤ) ∣ n * ((w : ℤ) - wordAt fmt (ptPartitions + partitionSz * i + 4 * j)) := by
  cases i with
  | zero =>
    rw [Nat.mul_zero, Nat.add_zero, ← checksum_damage_zero_iff fmt n hj hw, eq_self, true_and]
    refine ⟨Detects.changes, fun hne => ⟨hne, fun hvalid hnum d cfg disk hread => ?_⟩⟩
    subst hnum
    rw [mmcReadPartitionTbl_of_readFmt hread, if_neg (not_ptValid_damage hvalid hne)]
  | succ i => simp [not_detects_succ]

/-- A configuration of two partitions. -/
def twoPartitions : PartitionImage where
  version := nameBytes "01.00.00" ++ [0, 0, 0, 0]
  partNum := 2
  partitions :=
    strncpy mmcBootName ++ leBytes 8 (4 * sz1M) ++ leBytes 8 0 ++ leBytes 8 0 ++
      (strncpy (nameBytes "reserved") ++ leBytes 8 (64 * sz1M) ++ leBytes 8 (36 * sz1M) ++ leBytes 8 0) ++
      List.replicate (30 * partitionSz) 0
  length_version := by decide
  length_partitions := by decide +kernel

/-- It is accepted as it is stored, and also with another size of the second partition. -/
theorem not_detects_twoPartitions :
    ptValid (ofList (ptFmt twoPartitions) 0) ∧ ptPartNum (ofList (ptFmt twoPartitions) 0) = 2 ∧
      wordAt (ofList (ptFmt twoPartitions) 0) (ptPartitions + partitionSz * 1 + 4 * 4) ≠ 1 ∧
      ¬ Detects (ofList (ptFmt twoPartitions) 0) 2 1 4 1 ∧
        ptValid (damage (ofList (ptFmt twoPartitions) 0) 1 4 1) :=
  ⟨by decide +kernel, by decide +kernel, by decide +kernel, not_detects_succ _ 2 0 4 1, by decide +kernel⟩

/-- A change of the name of the first one is noticed. -/
theorem detects_twoPartitions : Detects (ofList (ptFmt twoPartitions) 0) 2 0 0 1 :=
  (detects_iff (ofList (ptFmt twoPartitions) 0) 2 0 (by decide) (by decide)).mpr ⟨rfl, by decide +kernel⟩

/-! ## What is written is read back -/

variable {d : BlockDev} {cfg : PartitionImage} {disk disk' : ℕ → UInt8}

theorem length_lastBlock (h : src.length ≤ d.readBlLen) :
    (lastBlock d src).length = d.readBlLen := by
  rw [lastBlock, length_append, length_replicate]
  omega

/-- A device whose blocks do not divide the structure. -/
def sectorDev : BlockDev where
  readBlLen := 512
  lba := 2 ^ 23
  accessLegal := fun _ _ => true
  readOk := fun _ _ => true
  readBlLen_pos := by decide

end UBoot.Mmc
