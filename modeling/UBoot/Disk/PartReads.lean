import UBoot.Disk.GptTables

/-!
# What a lookup reads

Reference: `disk/part_efi.c`, `get_partition_info_efi`, `is_gpt_valid` and `validate_gpt_header`.

The reads in the block of a header and in the buffer of the entries. The checksum of a header is
taken over `header_size` bytes as soon as the signature is right. The buffer has the size that the
header gives for the array, a product of 32 bits, but the array is indexed by entries of 128 bytes.
-/

namespace UBoot.Disk

open UBoot.Common List

/-- A read of bytes in front of `last`, from a buffer of `size` bytes. -/
structure Access where
  last : ℕ
  size : ℕ
deriving DecidableEq

/-- No read leaves its buffer. -/
def Inside (reads : List Access) : Prop := ∀ a ∈ reads, a.last ≤ a.size

section

variable (crc32 : List UInt8 → UInt32) (dev : GptDev) (stack : ℕ → UInt8) (disk : Contents) (lba : UInt64)

/-- The size of the buffer for the entries of a header. -/
def bufferSize (h : GptHeader) : ℕ := blockCnt dev (entriesSize h) * dev.blksz

end

section

variable {crc32 : List UInt8 → UInt32} {dev : GptDev} {stack : ℕ → UInt8} {disk : Contents} {lba : UInt64}

end

end UBoot.Disk
