import UBoot.Common.LittleEndian

/-!
# Sparse images

Reference: `v2_common/sparse_format.h`.

A sparse image is a file header of 28 bytes followed by chunks. Each chunk has a header of 12 bytes
and stands for a number of blocks of the expanded image: given byte by byte, filled with one 32-bit
value, or not given at all.
-/

namespace UBoot.Burning

open UBoot.Common List

/-- `SPARSE_HEADER_MAGIC`. -/
def sparseHeaderMagic : ℕ := 0xed26ff3a

/-- `CHUNK_TYPE_RAW`. -/
def chunkTypeRaw : ℕ := 0xCAC1

/-- `CHUNK_TYPE_FILL`. -/
def chunkTypeFill : ℕ := 0xCAC2

/-- `CHUNK_TYPE_DONT_CARE`. -/
def chunkTypeDontCare : ℕ := 0xCAC3

/-- `n` bytes of a 32-bit value over and over. -/
def fillBytes (value n : ℕ) : List UInt8 := (List.replicate (n / 4) (leBytes 4 value)).flatten

/-- What a chunk says about its blocks. -/
inductive ChunkBody where
  | raw (data : List UInt8)
  | fill (value : ℕ)
  | dontCare
deriving DecidableEq

/-- A chunk; `blocks` is its field `chunk_sz`, `reserved` is `reserved1`. -/
structure Chunk where
  reserved : ℕ
  blocks : ℕ
  body : ChunkBody
deriving DecidableEq

namespace Chunk

/-- The field `chunk_type`. -/
def chunkType (c : Chunk) : ℕ :=
  match c.body with
  | .raw _ => chunkTypeRaw
  | .fill _ => chunkTypeFill
  | .dontCare => chunkTypeDontCare

/-- The bytes behind the header. -/
def payload (c : Chunk) : List UInt8 :=
  match c.body with
  | .raw data => data
  | .fill value => leBytes 4 value
  | .dontCare => []

/-- The field `total_sz`. -/
def totalSz (c : Chunk) : ℕ := 12 + c.payload.length

/-- The chunk header. -/
def header (c : Chunk) : List UInt8 :=
  leBytes 2 c.chunkType ++ (leBytes 2 c.reserved ++ (leBytes 4 c.blocks ++ leBytes 4 c.totalSz))

/-- The chunk in the image file. -/
def encode (c : Chunk) : List UInt8 := c.header ++ c.payload

/-- The bytes the chunk stands for, where they are given. -/
def expand (blkSz : ℕ) (c : Chunk) : List (Option UInt8) :=
  match c.body with
  | .raw data => data.map some
  | .fill value => (fillBytes value (c.blocks * blkSz)).map some
  | .dontCare => List.replicate (c.blocks * blkSz) none

/-- The fields fit their widths, the expanded size is below 4 GiB, and the size of the data is that
of the blocks. -/
structure WellFormed (blkSz : ℕ) (c : Chunk) : Prop where
  reserved_lt : c.reserved < 2 ^ 16
  blocks_lt : c.blocks < 2 ^ 32
  size_lt : c.blocks * blkSz < 2 ^ 32
  total_lt : c.totalSz < 2 ^ 32
  raw : ∀ data, c.body = .raw data → data.length = c.blocks * blkSz
  fill : ∀ value, c.body = .fill value → value < 2 ^ 32

end Chunk

/-- A well-formed sparse image. -/
structure SparseImage where
  minorVersion : ℕ
  blkSz : ℕ
  totalBlks : ℕ
  imageChecksum : ℕ
  chunks : List Chunk
  blkSz_dvd : 512 ∣ blkSz
  blkSz_lt : blkSz < 2 ^ 32
  chunks_lt : chunks.length < 2 ^ 32
  wellFormed : ∀ c ∈ chunks, c.WellFormed blkSz

namespace SparseImage

/-- The file header: `magic`, versions, `file_hdr_sz`, `chunk_hdr_sz`, `blk_sz`, `total_blks`,
`total_chunks` and `image_checksum`. -/
def header (img : SparseImage) : List UInt8 :=
  leBytes 4 sparseHeaderMagic ++ (leBytes 2 1 ++ (leBytes 2 img.minorVersion ++ (leBytes 2 28 ++
    (leBytes 2 12 ++ (leBytes 4 img.blkSz ++ (leBytes 4 img.totalBlks ++
      (leBytes 4 img.chunks.length ++ leBytes 4 img.imageChecksum)))))))

/-- The image file. -/
def encode (img : SparseImage) : List UInt8 := img.header ++ img.chunks.flatMap Chunk.encode

/-- The expanded image. -/
def expanded (img : SparseImage) : List (Option UInt8) := img.chunks.flatMap
    (Chunk.expand img.blkSz)

end SparseImage

/-! ## Repeated values -/

theorem length_fillBytes {n : ℕ} (value : ℕ) (h : 4 ∣ n) : (fillBytes value n).length = n := by
  simp [fillBytes, Nat.div_mul_cancel h]

theorem fillBytes_add {m : ℕ} (value n : ℕ) (h : 4 ∣ m) :
    fillBytes value (m + n) = fillBytes value m ++ fillBytes value n := by
  rw [fillBytes, fillBytes, fillBytes, show (m + n) / 4 = m / 4 + n /
    4 by omega, replicate_add, flatten_append]

/-! ## Sizes -/

namespace Chunk

variable {blkSz : ℕ} {c : Chunk}

@[simp] theorem length_header (c : Chunk) : c.header.length = 12 := by simp [header]

@[simp] theorem length_encode (c : Chunk) : c.encode.length = c.totalSz := by
  simp [encode, totalSz]

theorem totalSz_raw {data : List UInt8} (hb : c.body = .raw data) :
    c.totalSz = 12 + data.length := by
  simp [totalSz, payload, hb]

theorem totalSz_fill {value : ℕ} (hb : c.body = .fill value) : c.totalSz = 16 := by
  simp [totalSz, payload, hb]

theorem totalSz_dontCare (hb : c.body = .dontCare) : c.totalSz = 12 := by
  simp [totalSz, payload, hb]

theorem le_totalSz (c : Chunk) : 12 ≤ c.totalSz := Nat.le_add_right _ _

theorem dvd_size (c : Chunk) (hblk : 512 ∣ blkSz) : 512 ∣ c.blocks * blkSz :=
  Nat.dvd_trans hblk (Nat.dvd_mul_left blkSz c.blocks)

theorem length_expand (h : c.WellFormed blkSz) (hblk : 512 ∣ blkSz) :
    (c.expand blkSz).length = c.blocks * blkSz := by
  unfold expand
  split
  · next data hb => rw [length_map, h.raw data hb]
  · rw [length_map, length_fillBytes _ (Nat.dvd_trans (by decide) (c.dvd_size hblk))]
  · simp

end Chunk

@[simp] theorem SparseImage.length_header (img : SparseImage) : img.header.length = 28 := by
  simp [header]

end UBoot.Burning
