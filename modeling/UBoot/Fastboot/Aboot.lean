import UBoot.Burning.SparseFormat
import UBoot.Common.Align
import UBoot.Common.Writes

/-!
# Flashing of sparse images by fastboot

`write_sparse_image` reads the chunks of a sparse image from memory and writes their blocks to a
device. The headers of the file and of the chunks may be longer than their structures.
-/

namespace UBoot.Fastboot

open UBoot.Common UBoot.Burning

/-! ### The code -/

/-- A block device; a block has a whole number of words. -/
structure BlockDev where
  blksz : ℕ
  log2blksz : ℕ
  blockWrite : ℕ → ℕ → Bool
  blksz_eq : blksz = 2 ^ log2blksz
  two_le : 2 ≤ log2blksz

/-- A partition, in blocks. -/
structure DiskPartition where
  start : ℕ
  size : ℕ
  end_lt : start + size < 2 ^ 64

section

variable (dev : BlockDev) (info : DiskPartition) (memalign : Bool) (mem : ℕ → UInt8)

/-- A 16-bit field of a structure in memory. -/
def u16At (a : ℕ) : ℕ := ofLe (load mem a 2)

/-- A 32-bit field of a structure in memory. -/
def u32At (a : ℕ) : ℕ := ofLe (load mem a 4)

/-- The fields of `sparse_header_t` that are used. -/
structure SparseHeader where
  fileHdrSz : ℕ
  chunkHdrSz : ℕ
  blkSz : ℕ
  totalBlks : ℕ
  totalChunks : ℕ
deriving DecidableEq

/-- The header at an address. -/
def sparseHeaderAt (a : ℕ) : SparseHeader where
  fileHdrSz := u16At mem (a + 8)
  chunkHdrSz := u16At mem (a + 10)
  blkSz := u32At mem (a + 12)
  totalBlks := u32At mem (a + 16)
  totalChunks := u32At mem (a + 20)

/-- `CHUNK_TYPE_CRC32`. -/
def chunkTypeCrc32 : ℕ := 0xCAC4

/-- The calls of `fastboot_fail` and `fastboot_okay`. -/
inductive Report
  | fail (reason : String)
  | okay
deriving DecidableEq

/-- The writes to the device, each with the address of its first byte. -/
abbrev DeviceWrites := List (ℕ × List UInt8)

/-- The variables of the loop over the chunks, and the writes so far. -/
structure Flash where
  data : ℕ
  blk : ℕ
  totalBlocks : ℕ
  writes : DeviceWrites

/-- A call that fails reports a reason; what was written before stays. -/
abbrev Flashing := Except (String × DeviceWrites)

/-- The loop that writes the fill buffer `n` times. -/
def fillBlocks (fillBuf : List UInt8) : ℕ → Flash → Flashing Flash
  | 0, s => .ok s
  | n + 1, s =>
    if dev.blockWrite s.blk 1 then
      fillBlocks fillBuf n
        { s with blk := (s.blk + 1) % 2 ^ 64, writes := s.writes ++ [(s.blk * dev.blksz, fillBuf)] }
    else .error ("flash write failure", s.writes)

/-- One round of the loop over the chunks. -/
def chunkStep (h : SparseHeader) (s : Flash) : Flashing Flash :=
  let chunkType := u16At mem s.data
  let chunkSz := u32At mem (s.data + 4)
  let totalSz := u32At mem (s.data + 8)
  let data := s.data + 12 + (h.chunkHdrSz - 12)
  let chunkDataSz := h.blkSz * chunkSz % 2 ^ 32
  let blkcnt := chunkDataSz / dev.blksz
  if chunkType = chunkTypeRaw then
    if totalSz ≠ (h.chunkHdrSz + chunkDataSz) % 2 ^ 32 then
      .error ("Bogus chunk size for chunk type Raw", s.writes)
    else if (s.blk + blkcnt) % 2 ^ 64 > info.start + info.size then
      .error ("Request would exceed partition size!", s.writes)
    else if dev.blockWrite s.blk blkcnt then
      .ok ⟨data + chunkDataSz, (s.blk + blkcnt) % 2 ^ 64, (s.totalBlocks + chunkSz) % 2 ^ 32,
        s.writes ++ [(s.blk * dev.blksz, load mem data (blkcnt * dev.blksz))]⟩
    else .error ("flash write failure", s.writes)
  else if chunkType = chunkTypeFill then
    if totalSz ≠ h.chunkHdrSz + 4 then .error ("Bogus chunk size for chunk type FILL", s.writes)
    else if ¬ memalign then .error ("Malloc failed for: CHUNK_TYPE_FILL", s.writes)
    else if (s.blk + blkcnt) % 2 ^ 64 > info.start + info.size then
      .error ("Request would exceed partition size!", s.writes)
    else do
      let s' ← fillBlocks dev (fillBytes (u32At mem data) dev.blksz) blkcnt s
      return { s' with data := data + 4, totalBlocks := (s.totalBlocks + chunkDataSz / h.blkSz) % 2 ^ 32 }
  else if chunkType = chunkTypeDontCare then
    .ok ⟨data, (s.blk + blkcnt) % 2 ^ 64, (s.totalBlocks + chunkSz) % 2 ^ 32, s.writes⟩
  else if chunkType = chunkTypeCrc32 then
    if totalSz ≠ h.chunkHdrSz then .error ("Bogus chunk size for chunk type Dont Care", s.writes)
    else .ok ⟨data + chunkDataSz, s.blk, (s.totalBlocks + chunkSz) % 2 ^ 32, s.writes⟩
  else .error ("Unknown chunk type", s.writes)

/-- The loop over the chunks. -/
def chunkLoop (h : SparseHeader) : ℕ → Flash → Flashing Flash
  | 0, s => .ok s
  | n + 1, s => do chunkLoop h n (← chunkStep dev info memalign mem h s)

/-- `write_sparse_image`: what it reports, and what it writes. A file header that is longer than its
structure is skipped twice. -/
def writeSparseImage (data : ℕ) : List Report × DeviceWrites :=
  let h := sparseHeaderAt mem data
  let first := data + h.fileHdrSz + (h.fileHdrSz - 28)
  let blkSz := BitVec.ofNat 64 h.blkSz
  if blkSz ≠ blkSz &&& ~~~(BitVec.ofNat 64 dev.blksz - 1) then
    ([.fail "sparse image block size issue"], [])
  else
    match chunkLoop dev info memalign mem h h.totalChunks ⟨first, info.start, 0, []⟩ with
    | .error e => ([.fail e.1], e.2)
    | .ok s =>
      ((if s.totalBlocks ≠ h.totalBlks then [.fail "sparse image write failure"] else []) ++
        [.okay], s.writes)

end

/-! ### Images -/

/-- A chunk whose header is followed by further bytes. -/
structure FbChunk extends Chunk where
  pad : List UInt8

namespace FbChunk

/-- The chunk in the image. -/
def encode (hdrSz : ℕ) (c : FbChunk) : List UInt8 :=
  leBytes 2 c.chunkType ++ (leBytes 2 c.reserved ++ (leBytes 4 c.blocks ++
    (leBytes 4 (hdrSz + c.payload.length) ++ (c.pad ++ c.payload))))

/-- The fields fit their widths, and the sizes are those of the data. -/
structure WellFormed (blkSz hdrSz : ℕ) (c : FbChunk) : Prop where
  reserved_lt : c.reserved < 2 ^ 16
  blocks_lt : c.blocks < 2 ^ 32
  pad_length : 12 + c.pad.length = hdrSz
  total_lt : hdrSz + c.payload.length < 2 ^ 32
  raw : ∀ data, c.body = .raw data → data.length = c.blocks * blkSz
  fill : ∀ value, c.body = .fill value → value < 2 ^ 32

/-- Some byte of the expanded image is given by the chunk. -/
def Given (c : FbChunk) : Prop := c.body ≠ .dontCare ∧ 0 < c.blocks

end FbChunk

/-- A well-formed sparse image, with headers of any size. -/
structure FbImage where
  minorVersion : ℕ
  blkSz : ℕ
  imageChecksum : ℕ
  chunkHdrSz : ℕ
  pad : List UInt8
  chunks : List FbChunk
  blkSz_pos : 0 < blkSz
  blkSz_lt : blkSz < 2 ^ 32
  chunkHdrSz_lt : chunkHdrSz < 2 ^ 16
  pad_lt : 28 + pad.length < 2 ^ 16
  chunks_lt : chunks.length < 2 ^ 32
  totalBlks_lt : (chunks.map fun c => c.blocks).sum < 2 ^ 32
  wellFormed : ∀ c ∈ chunks, c.WellFormed blkSz chunkHdrSz

namespace FbImage

/-- The field `total_blks`. -/
def totalBlks (img : FbImage) : ℕ := (img.chunks.map fun c => c.blocks).sum

/-- The file header. -/
def header (img : FbImage) : List UInt8 :=
  leBytes 4 sparseHeaderMagic ++ (leBytes 2 1 ++ (leBytes 2 img.minorVersion ++
    (leBytes 2 (28 + img.pad.length) ++ (leBytes 2 img.chunkHdrSz ++ (leBytes 4 img.blkSz ++
      (leBytes 4 img.totalBlks ++ (leBytes 4 img.chunks.length ++
      (leBytes 4 img.imageChecksum ++ img.pad))))))))

/-- The image file. -/
def encode (img : FbImage) : List UInt8 := img.header ++ img.chunks.flatMap
    (FbChunk.encode img.chunkHdrSz)

/-- The expanded image. -/
def expanded (img : FbImage) : List (Option UInt8) :=
  img.chunks.flatMap fun c => c.toChunk.expand img.blkSz

/-- The block size suits the device, and the expanded image fits the partition. -/
structure Fits (img : FbImage) (dev : BlockDev) (info : DiskPartition) : Prop where
  dvd : dev.blksz ∣ img.blkSz
  size_le : img.totalBlks * img.blkSz ≤ info.size * dev.blksz

end FbImage

/-- The device after the image was flashed: the given bytes at their places, the old bytes
elsewhere. -/
def flashed (img : FbImage) (dev : BlockDev) (info : DiskPartition) (disk : ℕ → UInt8) (i : ℕ) :
    UInt8 :=
  if info.start * dev.blksz ≤ i then ((img.expanded[i - info.start * dev.blksz]?).join).getD
    (disk i) else disk i

/-- Wherever the image is in memory and whatever is on the device, the call reports `OKAY` and
leaves the expanded image in the partition. -/
def FlashesExpansion (img : FbImage) (dev : BlockDev) (info : DiskPartition) (memalign : Bool) :
    Prop :=
  ∀ mem data disk, Contains mem data img.encode →
    (writeSparseImage dev info memalign mem data).1 = [.okay] ∧
      applyWrites disk (writeSparseImage dev info memalign mem data).2 = flashed img dev info disk

/-- A chunk has 4 GiB or more only if nothing is given from it on. -/
def Sized (blkSz : ℕ) : List FbChunk → Prop
  | [] => True
  | c :: cs => (blkSz * c.blocks < 2 ^ 32 ∨ ∀ c' ∈ c :: cs, ¬ c'.Given) ∧ Sized blkSz cs

end UBoot.Fastboot
