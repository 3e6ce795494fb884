import UBoot.Disk.PartEfi

/-!
# Looking a partition up by its name

Reference: `disk/part_efi.c::get_partition_info_efi_by_name`, `include/part.h::disk_partition_t`.

Entry after entry is read into `info` and its name compared. The search takes every failure of
`get_partition_info_efi` for the end of the table.
-/

namespace UBoot.Disk

open UBoot.Common List

/-- The string at `info->name`. A name of 32 characters or more runs into `info->type`, which is
written afterwards. -/
def PartInfo.nameString (p : PartInfo) : List UInt8 :=
  if p.name.length < 32 then p.name else p.name.take 32 ++ "U-Boot".toUTF8.toList

/-- The entries up to `i` are all used, and `i` is not the last number of the table. -/
def Reached (info : ℕ → Option PartInfo) (i : ℕ) : Prop := 1 ≤ i ∧ i < 128 ∧ ∀ j, 1 ≤ j → j ≤ i →
    (info j).isSome

/-- The names that are looked up right. A name of an entry has less than 32 characters and is in
front of the first unused entry; any other name is not the text that a longer one leaves in
`info`. -/
def Served (info : ℕ → Option PartInfo) (name : List UInt8) : Prop :=
  (∃ i, Reached info i ∧ name.length < 32 ∧ ∃ p ∈ info i, p.name = name) ∨
    (∀ i, 1 ≤ i → i ≤ 128 → ∀ p ∈ info i, p.name ≠ name) ∧
      ∀ i, Reached info i → ∀ p ∈ info i, 32 ≤ p.name.length →
      p.name.take 32 ++ "U-Boot".toUTF8.toList ≠ name

section

variable {info : ℕ → Option PartInfo} {name : List UInt8} {i : ℕ} {p : PartInfo}

/-- Where the search stops: at the first entry that is unused or has the name. -/
def stop (info : ℕ → Option PartInfo) (name : List UInt8) (is : List ℕ) : Option ℕ :=
  is.find? fun i => ∀ p ∈ info i, p.nameString = name

end

section

variable {crc32 : List UInt8 → UInt32} {dev : GptDev} {stack : ℕ → UInt8} {disk : Contents}
    {i : ℕ} {p : PartInfo}

end

end UBoot.Disk
