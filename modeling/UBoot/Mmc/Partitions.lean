import Mathlib.Algebra.Group.Int.Defs
import UBoot.Common.LittleEndian
import Mathlib.Data.Int.Basic

/-!
# The eMMC partition table

`get_partition_from_dts` writes the partitions of the device tree to an allocated table, and
`mmc_get_partition_table` merges that table with the inherent partitions of the board. The loops
over `part_table` always read `MAX_MMC_PART_NUM` entries, so the memory behind the allocated table
is a part of the model.
-/

namespace UBoot.Mmc

open UBoot.Common

/-! ## Names -/

/-- `MAX_MMC_PART_NUM`. -/
def maxMmcPartNum : ℕ := 32

/-- `MAX_MMC_PART_NAME_LEN`, the size of a `name` array. -/
def maxMmcPartNameLen : ℕ := 16

/-- What `strncmp` and `strncpy` look at: at most 16 bytes, up to a NUL. -/
def strn (l : List UInt8) : List UInt8 := (l.take maxMmcPartNameLen).takeWhile (· ≠ 0)

/-- `strncpy` fills the rest of the array with NUL bytes. -/
def strncpy (l : List UInt8) : List UInt8 :=
  strn l ++ List.replicate (maxMmcPartNameLen - (strn l).length) 0

/-- `!strncmp(a, b, MAX_MMC_PART_NAME_LEN)`. -/
def sameName (a b : List UInt8) : Bool := strn a == strn b

/-- The bytes of a name in the source. -/
def nameBytes (s : String) : List UInt8 := s.toUTF8.data.toList

/-! ## The table of the device tree -/

/-- `struct partitions`. -/
structure Partition where
  name : List UInt8
  size : ℕ
  offset : ℕ
  maskFlags : ℕ
deriving DecidableEq

section

variable (src tbl : List Partition) (deviceBootFlag capacity : ℕ)

/-- The properties of a partition node: `pname` (NULL if absent), `size` and `mask`. -/
structure DtsPart where
  pname : Option (List UInt8)
  size : ℕ
  mask : ℕ

/-- `sizeof(struct partitions)`. -/
def partitionSz : ℕ := 40

/-- The body of the loop of `get_partition_from_dts`. The copy of the name has the length of the
name, not of the array; what it writes over is only restored for the two fields that are set behind
it. -/
def fillEntry (mem : ℕ → UInt8) (index : ℕ) (part : DtsPart) : ℕ → UInt8 :=
  let base := partitionSz * index
  let named := match part.pname with
    | none => mem
    | some uname => store mem base uname
  store (store named (base + 16) (leBytes 8 part.size)) (base + 32) (leBytes 4 part.mask)

/-- The loop of `get_partition_from_dts` from entry `index` on. -/
def fillEntries (mem : ℕ → UInt8) (index : ℕ) : List DtsPart → ℕ → UInt8
  | [] => mem
  | part :: parts => fillEntries (fillEntry mem index part) (index + 1) parts

/-- `get_partition_from_dts`: the memory from `part_table` on. `heap` is what was there before. -/
def getPartitionFromDts (parts : List DtsPart) (heap : ℕ → UInt8) : ℕ → UInt8 :=
  fillEntries (fun a => if a < partitionSz * parts.length then 0 else heap a) 0 parts

/-- `part_table[i]`. -/
def partTableEntry (mem : ℕ → UInt8) (i : ℕ) : Partition where
  name := load mem (partitionSz * i) 16
  size := ofLe (load mem (partitionSz * i + 16) 8)
  offset := ofLe (load mem (partitionSz * i + 24) 8)
  maskFlags := ofLe (load mem (partitionSz * i + 32) 4)

/-- What the loops over `part_table` read, however long the table is. -/
def partTable (mem : ℕ → UInt8) : List Partition :=
  (List.range maxMmcPartNum).map (partTableEntry mem)

/-! ## The inherent partitions -/

/-- `SZ_1M`. -/
def sz1M : ℕ := 1048576

/-- `MMC_BOOT_NAME`. -/
def mmcBootName : List UInt8 := nameBytes "bootloader"

/-- `emmc_partition_table` as it is compiled in. -/
def emmcPartitionTable : List Partition :=
  [⟨mmcBootName, 4 * sz1M, 0, 0⟩, ⟨nameBytes "reserved", 64 * sz1M, 0, 0⟩,
    ⟨nameBytes "cache", 0, 0, 0⟩, ⟨nameBytes "env", 8 * sz1M, 0, 0⟩]

/-- `find_partition_by_name`. -/
def findPartitionByName (name : List UInt8) : List Partition → Option Partition
  | [] => none
  | p :: rest =>
    if strn p.name = [] then none
    else if sameName p.name name then some p
    else findPartitionByName name rest

/-- Change the partition that `find_partition_by_name` finds. -/
def modifyByName (name : List UInt8) (f : Partition → Partition) : List Partition → List Partition
  | [] => []
  | p :: rest =>
    if strn p.name = [] then p :: rest
    else if sameName p.name name then f p :: rest
    else p :: modifyByName name f rest

/-- `set_partition_info`: size and flags of the named partition are taken over from `src`. -/
def setPartitionInfo (dst : List Partition) (name : List UInt8) : List Partition :=
  match findPartitionByName name src with
  | none => dst
  | some s => modifyByName name (fun d => { d with size := s.size, maskFlags := s.maskFlags }) dst

/-- `overide_emmc_partition_table`. -/
def overideEmmcPartitionTable : List Partition :=
  (tbl.map Partition.name).foldl (setPartitionInfo src) tbl

/-- `is_in_emmc_partition_tbl`. -/
def isInEmmcPartitionTbl (name : List UInt8) : Bool :=
  (findPartitionByName name tbl).isSome

/-! ## The merged table -/

/-- `PARTITION_RESERVED`. -/
def partitionReserved : ℕ := 8 * sz1M

/-- `MMC_BOOT_PARTITION_RESERVED`. -/
def mmcBootPartitionReserved : ℕ := 32 * sz1M

/-- `MMC_BOTTOM_RSV_SIZE`. -/
def mmcBottomRsvSize : ℕ := 0

/-- `struct mmc_partition_config`. `partitions` are the entries that were filled in; the array of
the source has room for `MAX_MMC_PART_NUM` of them. -/
structure MmcPartitionConfig where
  version : List UInt8
  partNum : ℕ
  partitions : List Partition
deriving DecidableEq

/-- For a board that has not booted from eMMC, two bytes of the name behind the boot partition are
set. -/
def renameForSpiBoot (name : List UInt8) : List UInt8 :=
  if deviceBootFlag ≠ 2 then (name.set 10 101).set 11 0 else name

/-- The body of the loop over the inherent partitions. -/
def addInherent (parts : List Partition) (q : Partition) : List Partition :=
  match parts.getLast? with
  | none => parts ++ [{ q with name := strncpy q.name, offset := 0 }]
  | some prev =>
    if sameName prev.name mmcBootName then
      parts ++ [{ q with
        name := renameForSpiBoot deviceBootFlag (strncpy q.name)
        offset := (prev.offset + prev.size + mmcBootPartitionReserved) % 2 ^ 64 }]
    else
      parts ++ [{ q with
        name := strncpy q.name
        offset := (prev.offset + prev.size + partitionReserved) % 2 ^ 64 }]

/-- An entry of the device tree behind the partition `prev`. -/
def placeBehind (prev p : Partition) : Partition where
  name := strncpy p.name
  size := p.size
  offset := (prev.offset + prev.size + partitionReserved) % 2 ^ 64
  maskFlags := p.maskFlags

/-- The size of a partition that gets the rest of the device. -/
def restOfDevice (offset : ℕ) : ℕ :=
  let size := (capacity + 2 ^ 64 - offset) % 2 ^ 64
  if mmcBottomRsvSize < size then size - mmcBottomRsvSize else size

/-- The loop over `part_table`. `part_num` is the length of `parts`; when the loop is left by
`break`, the last entry has been filled in and not been counted. -/
def addFromDts : List Partition → List Partition → ℕ × List Partition
  | [], parts => (parts.length, parts)
  | p :: rest, parts =>
    if isInEmmcPartitionTbl tbl p.name then addFromDts rest parts
    else
      match parts.getLast? with
      | none => (parts.length, parts)
      | some prev =>
        let q := placeBehind prev p
        if p.size = 2 ^ 64 - 1 ∨ capacity < (q.offset + q.size) % 2 ^ 64 then
          (parts.length, parts ++ [{ q with size := restOfDevice capacity q.offset }])
        else addFromDts rest (parts ++ [q])

/-- The table that `mmc_get_partition_table` builds. -/
def buildTable (src tbl : List Partition) : MmcPartitionConfig :=
  let inherent := tbl.foldl (addInherent deviceBootFlag) []
  let (partNum, partitions) := addFromDts tbl capacity src inherent
  { version := nameBytes "01.00.00", partNum := partNum + 1, partitions := partitions }

/-- `mmc_get_partition_table`. `kmalloc` says whether the allocation succeeds and `dtb` is the
outcome of `get_dtb_struct`, the memory from `part_table` on. `emmc_partition_table` keeps the sizes
it was given. -/
def mmcGetPartitionTable (kmalloc : Bool) (dtb : Option (ℕ → UInt8)) (deviceBootFlag capacity : ℕ)
    (tbl : List Partition) : Except ℤ (MmcPartitionConfig × List Partition) :=
  if !kmalloc then .error (-1)
  else
    match dtb with
    | none => .error (-12)
    | some mem =>
      let tbl' := overideEmmcPartitionTable (partTable mem) tbl
      .ok (buildTable deviceBootFlag capacity (partTable mem) tbl', tbl')

end

end UBoot.Mmc
