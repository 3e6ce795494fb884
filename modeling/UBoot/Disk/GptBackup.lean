import UBoot.Disk.GptRoundTrip

/-!
# The backup table

The backup is used if the primary table is damaged. Nothing checks that the disk has room for both
tables: on a small disk the number of the last usable block wraps around, or lies inside of the
primary table.
-/

namespace UBoot.Disk

open UBoot.Common UBoot.Lib List

section Backup

variable {crc32 : List UInt8 → UInt32} {dev : GptDev} {stack stack' : ℕ → UInt8} {disk disk' : Contents}
  {guid : Guid} {strGuid : List UInt8} {parts : List DiskPartition} {filled : List GptEntry}

/-- The disks differ in the blocks of the primary table only. -/
def AgreeOutsidePrimary (dev : GptDev) (disk disk' : Contents) : Prop :=
  ∀ a, a < 1 * dev.blksz ∨ (2 + entryBlkCnt dev) * dev.blksz ≤ a → disk' a = disk a

/-- Whatever happens to the primary table, if it is no longer valid the partitions are found as
before. -/
def Backs (crc32 : List UInt8 → UInt32) (dev : GptDev) (disk : Contents)
    (parts : List DiskPartition) : Prop :=
  ∀ (stack stack' : ℕ → UInt8) (disk' : Contents), AgreeOutsidePrimary dev disk disk' →
    isGptValid crc32 dev stack' disk' 1 = none →
    ∀ i < parts.length, ∃ before info, getPartitionInfoEfi crc32 dev stack disk
      (i + 1) = some before ∧ getPartitionInfoEfi crc32 dev stack' disk' (i + 1) = some info ∧
      info.start = before.start ∧ info.size = before.size ∧ info.name = before.name

/-! ### Enough blocks -/

/-- The backup table survives, as it lies behind the primary one. -/
theorem isGptValid_backup (hlba : 35 + entryBlkCnt dev ≤ dev.lba.toNat)
    (hagree : AgreeOutsidePrimary dev (restored crc32 dev stack disk guid filled) disk') :
    isGptValid crc32 dev stack' disk' (dev.lba - 1) =
      some (backupHeader crc32 dev guid filled, entryBlocks dev filled) := by
  have hback := toNat_backupLba dev (by omega)
  have hlast := toNat_lastLba dev (by omega)
  have htable : TableAt crc32 dev (restored crc32 dev stack disk guid filled) (dev.lba - 1)
    (backupHeader crc32 dev guid filled) (entryBlocks dev filled) := tableAt_backup (by omega)
  have hbehind : ∀ {b i : ℕ}, 2 + entryBlkCnt dev ≤ b → b * dev.blksz ≤ i →
      disk' i = restored crc32 dev stack disk guid filled i :=
    fun hb hi => hagree _ (.inr ((Nat.mul_le_mul_right _ hb).trans hi))
  exact (htable.congr (fun i hle _ => hbehind (by omega) hle)
    (fun i hle _ => hbehind (b := (dev.lba - 34 + 1).toNat) (by omega) hle)).isGptValid_eq

theorem backs_of_le (hfill : gptFillPte (dev.lba - 34) 34 parts = some filled)
    (hlen : parts.length ≤ 128) (hlba : 35 + entryBlkCnt dev ≤ dev.lba.toNat) :
    Backs crc32 dev (restored crc32 dev stack disk guid filled) parts := by
  intro stack₁ stack₂ disk' hagree hprimary i hi
  obtain ⟨bin, start, -, -, he⟩ := getElem?_gptFillPte hfill hi
  refine ⟨_, _, getPartitionInfoEfi_restored hlba (by omega) he rfl, ?_, rfl, rfl, rfl⟩
  rw [getPartitionInfoEfi, hprimary, isGptValid_backup hlba hagree]
  exact infoFromTable_eq rfl (by omega) he rfl

/-! ### A primary table of zeros -/

/-- The disk with zeros in place of the primary table. -/
def zeroed (dev : GptDev) (disk : Contents) (a : ℕ) : UInt8 :=
  if 1 * dev.blksz ≤ a ∧ a < (2 + entryBlkCnt dev) * dev.blksz then 0 else disk a

theorem agreeOutsidePrimary_zeroed : AgreeOutsidePrimary dev disk (zeroed dev disk) := by
  intro a ha
  exact if_neg (by omega)

/-- A block of the primary table. -/
theorem zeroed_block {b i : ℕ} (hb : 1 ≤ b) (hb' : b < 2 + entryBlkCnt dev) (hi : i < dev.blksz) :
    zeroed dev disk (b * dev.blksz + i) = 0 := by
  refine if_pos ⟨(Nat.mul_le_mul_right _ hb).trans (Nat.le_add_right _ _), ?_⟩
  have hle : (b + 1) * dev.blksz ≤ (2 + entryBlkCnt dev) * dev.blksz := Nat.mul_le_mul_right _ hb'
  rw [Nat.succ_mul] at hle
  omega

theorem load_eq_replicate {buf : ℕ → UInt8} {a n : ℕ} (h : ∀ i < n, buf (a + i) = 0) :
    load buf a n = replicate n 0 := by
  refine eq_replicate_iff.mpr ⟨length_load _ _ _, fun c hc => ?_⟩
  obtain ⟨i, hi, rfl⟩ := mem_map.mp hc
  exact h i (mem_range.mp hi)

/-- A block of zeros is no header. -/
theorem isGptValid_zeroed {lba : UInt64} (hlba : 1 ≤ lba.toNat)
    (hlba' : lba.toNat < 2 + entryBlkCnt dev) :
    isGptValid crc32 dev stack (zeroed dev disk) lba = none := by
  refine Option.eq_none_iff_forall_ne_some.mpr ?_
  rintro ⟨h, pte⟩ hv
  obtain ⟨hh, hsig, -⟩ := isGptValid_eq_some hv
  have hblk := dev.le_blksz
  have hzero : h.signature = 0 := by
    rw [hh]
    refine congrArg (fun l => UInt64.ofNat (ofLe l)) (load_eq_replicate fun i hi => ?_)
    rw [headerBuffer_load (by omega)]
    exact zeroed_block hlba hlba' (by omega)
  rw [hzero] at hsig
  cases hsig

/-- Nothing is found if there is no primary table and the backup does not have the partition. -/
theorem getPartitionInfoEfi_eq_none {part : ℕ} (hprimary : isGptValid crc32 dev stack disk 1 = none)
    (hbackup : ∀ h pte, isGptValid crc32 dev stack disk (dev.lba - 1) = some (h, pte) →
      infoFromTable dev h pte part = none) :
    getPartitionInfoEfi crc32 dev stack disk part = none := by
  rw [getPartitionInfoEfi, hprimary]
  split
  · rfl
  dsimp only
  split
  · rename_i h pte hv
    exact hbackup h pte hv
  · rfl

/-- A partition that is not found without the primary table. -/
theorem not_backs (stack : ℕ → UInt8) {i : ℕ} (hi : i < parts.length)
    (hbackup : ∀ h pte, isGptValid crc32 dev stack (zeroed dev disk) (dev.lba - 1) = some (h, pte) →
      infoFromTable dev h pte (i + 1) = none) : ¬ Backs crc32 dev disk parts := by
  intro hbacks
  have hprimary : isGptValid crc32 dev stack (zeroed dev disk) 1 = none :=
    isGptValid_zeroed le_rfl (show 1 < _ by omega)
  obtain ⟨-, info, -, hinfo, -⟩ := hbacks stack stack _ agreeOutsidePrimary_zeroed hprimary i hi
  rw [getPartitionInfoEfi_eq_none hprimary hbackup] at hinfo
  cases hinfo

/-- An entry in a block of zeros is not used. -/
theorem infoFromTable_zeroed {h : GptHeader} {b cnt : ℕ} (hb : 1 ≤ b)
    (hb' : b < 2 + entryBlkCnt dev)
    (hcnt : 1 ≤ cnt) : infoFromTable dev h
      (load (zeroed dev disk) (b * dev.blksz) (cnt * dev.blksz)) 1 = none := by
  refine if_pos (.inr ?_)
  have hblk := dev.le_blksz
  have hle : 1 * dev.blksz ≤ cnt * dev.blksz := Nat.mul_le_mul_right _ hcnt
  have hload : load (ofList (load (zeroed dev disk) (b * dev.blksz) (cnt * dev.blksz)) 0) 0 16 =
    replicate 16 0 := by
    refine load_eq_replicate fun i hi => ?_
    have hget : ofList (load (zeroed dev disk) (b * dev.blksz) (cnt * dev.blksz)) 0 (0 + i) =
        zeroed dev disk (b * dev.blksz + i) := by
      rw [ofList]
      simp [load, getElem?_range (show i < cnt * dev.blksz by omega)]
    rw [hget]
    exact zeroed_block hb hb' (by omega)
  simp only [gptEntryAt, guidAt, hload, unusedGuid]

/-- A backup header outside of the primary table is read back. -/
theorem eq_backupHeader {h : GptHeader} {pte : List UInt8}
    (hlba : 2 + entryBlkCnt dev < dev.lba.toNat)
    (hv : isGptValid crc32 dev stack' (zeroed dev (restored crc32 dev stack disk guid filled))
      (dev.lba - 1) = some (h, pte)) : h = backupHeader crc32 dev guid filled := by
  have hlast := toNat_lastLba dev (by omega)
  have hblk := dev.le_blksz
  have hheader : Contains (zeroed dev (restored crc32 dev stack disk guid filled))
      ((dev.lba - 1).toNat * dev.blksz) (backupHeader crc32 dev guid filled).encode := by
    refine contains_backupHeader.congr fun i hle _ => agreeOutsidePrimary_zeroed i (.inr ?_)
    exact (Nat.mul_le_mul_right _ (by omega)).trans hle
  rw [(isGptValid_eq_some hv).1]
  exact gptHeaderAt_of_contains (contains_headerBuffer hheader (by rw [length_encode_header]; omega))

/-- On a disk without enough blocks the backup goes with the primary table. -/
theorem not_backs_of_lt (hparts : parts ≠ [])
    (hbackup : (dev.lba - 34 + 1).toNat + entryBlkCnt dev ≤ dev.lba.toNat)
    (hprimary : 2 + entryBlkCnt dev ≤ dev.lba.toNat) (hlba : dev.lba.toNat < 35 + entryBlkCnt dev) :
    ¬ Backs crc32 dev (restored crc32 dev stack disk guid filled) parts := by
  have hlast := toNat_lastLba dev (by omega)
  have h33 : 33 ≤ dev.lba.toNat := by
    rw [UInt64.toNat_add, UInt64.toNat_sub] at hbackup
    simp only [UInt64.reduceToNat] at hbackup
    omega
  have hback := toNat_backupLba dev h33
  refine not_backs stack (length_pos_iff.mpr hparts) fun h pte hv => ?_
  -- the backup header lies in the primary table, or its last usable block wraps around, or its
  -- entries do
  rcases lt_or_ge (2 + entryBlkCnt dev) dev.lba.toNat with hout | hin
  · obtain rfl := eq_backupHeader hout hv
    obtain ⟨-, -, husable, hsize, rfl⟩ := isGptValid_eq_some hv
    rcases eq_or_lt_of_le h33 with h33 | h34
    · have hwrap : (dev.lba - 34).toNat ≤ dev.lba.toNat := UInt64.le_iff_toNat_le.mp husable
      rw [UInt64.toNat_sub, ← h33] at hwrap
      exact absurd hwrap (by decide)
    · exact infoFromTable_zeroed (b := (dev.lba - 34 + 1).toNat) (by omega) (by omega) (Nat.succ_pos _)
  · rw [isGptValid_zeroed (by omega) (by omega)] at hv
    cases hv

/-- What `gpt_restore` writes survives every damage to the primary table if and only if the call
fails, or there are no partitions, or there are at most 128 of them and the disk has room for both
tables. -/
theorem backs_iff :
    (∀ disk', gptRestore crc32 dev stack disk strGuid parts = some disk' → Backs crc32 dev disk' parts) ↔
      gptRestore crc32 dev stack disk strGuid parts = none ∨ parts = [] ∨
        (parts.length ≤ 128 ∧ 35 + entryBlkCnt dev ≤ dev.lba.toNat) := by
  rcases hres : gptRestore crc32 dev stack disk strGuid parts with _ | disk₁
  · simp
  obtain ⟨guid, filled, hfill, hprimary, hbackup, rfl⟩ := gptRestore_eq_some hres
  constructor
  · intro hall
    have hbacks := hall _ rfl
    refine .inr ?_
    by_cases hparts : parts = []
    · exact .inl hparts
    · refine .inr ?_
      have hlba : 35 + entryBlkCnt dev ≤ dev.lba.toNat := not_lt.mp fun hlt =>
        not_backs_of_lt hparts hbackup hprimary hlt hbacks
      refine ⟨not_lt.mp fun hlt => ?_, hlba⟩
      -- entries beyond the 128th are not found
      refine not_backs stack (i := parts.length - 1) (by omega) (fun h pte hv => ?_) hbacks
      rw [isGptValid_backup hlba agreeOutsidePrimary_zeroed] at hv
      obtain ⟨rfl, rfl⟩ := Prod.mk.inj (Option.some.inj hv)
      exact if_pos (.inl (show 128 < _ by omega))
  · rintro (h | rfl | ⟨hlen, hlba⟩) disk' hdisk
    · cases h
    · intro _ _ _ _ _ i hi
      cases hi
    · obtain rfl := Option.some.inj hdisk
      exact backs_of_le hfill hlen hlba

/-- A disk of 33 blocks of 4096 bytes. -/
def tinyDisk : GptDev := ⟨33, 4096, by decide⟩

/-- A table with one partition is accepted there, and its backup overwrites the primary table. -/
theorem not_backs_tinyDisk :
    ∃ disk', gptRestore (fun _ => 0) tinyDisk (fun _ => 0) (fun _ => 0) bootPartition.uuid
        [bootPartition] = some disk' ∧
      ¬ Backs (fun _ => 0) tinyDisk disk' [bootPartition] := by
  obtain ⟨guid, hguid⟩ : ∃ guid, uuidStrToBin bootPartition.uuid .guid = some guid :=
    Option.isSome_iff_exists.mp (by decide +kernel)
  obtain ⟨filled, hfill⟩ : ∃ filled, gptFillPte (tinyDisk.lba - 34) 34 [bootPartition] = some filled :=
    Option.isSome_iff_exists.mp (by decide +kernel)
  refine ⟨_, gptRestore_eq_restored hguid hfill (by decide) (by decide), ?_⟩
  exact not_backs_of_lt (by simp) (by decide) (by decide) (by decide)

end Backup

end UBoot.Disk
