import Mathlib.Algebra.Group.Int.Defs
import UBoot.Burning.SparseFormat
import Mathlib.Data.Int.Basic

/-!
# Burning a sparse image

Reference: `v2_common/optimus_simg2img.c` (`optimus_simg_probe`, `optimus_simg_parser_init`,
`optimus_simg_to_media`) and `optimus_download_sparse_image` of `v2_common/optimus_download.c`.

The image arrives in buffers. Each call parses what it can, writes it to the media, and reports how
many bytes at the end of the buffer it left unparsed; the caller puts these in front of the next
buffer.

A pointer into the buffer is the list of bytes from there to the end of the buffer. A read of data
outside of it is the fault `overread`: its result would depend on whatever lies behind the buffer.
The fields of `_spPacketStates` are natural numbers, kept below `2 ^ 32` by the operations on them.
-/

namespace UBoot.Burning

open UBoot.Common

section

variable (env : BurnEnv) (c : Cursor) (totalSz chunkDataLen : ℕ) (s : SimgState) (fillVal len : ℕ)

/-- Subtraction of 32-bit unsigned numbers. -/
def sub32 (a b : ℕ) : ℕ := (a + (2 ^ 32 - b % 2 ^ 32)) % 2 ^ 32

/-- A 32-bit unsigned number as an `int`. -/
def toInt32 (a : ℕ) : ℤ := if a < 2 ^ 31 then a else (a : ℤ) - 2 ^ 32

/-- Round down to whole slots, `(len >> OPTIMUS_DOWNLOAD_SLOT_SZ_SHIFT_BITS) << …`. -/
def alignSlot : ℕ := len / 65536 * 65536

/-- `OPTIMUS_SPARSE_IMG_FILL_VAL_BUF`, relative to the start of the area of backed up headers that
lies in front of it, `OPTIMUS_DOWNLOAD_SPARSE_INFO_FOR_VERIFY`. -/
def fillValBuf : ℕ := 2 ^ 21

/-- `OPTIMUS_SPARSE_IMG_FILL_BUF_SZ`. -/
def fillBufSz : ℕ := 65536

/-- `device_boot_flag`, as far as filling looks at it. -/
inductive BootFlag where
  | emmc
  | nand
  | other
deriving DecidableEq

/-- What the burning reads of its surroundings: the boot device and `is_optimus_storage_inited()`,
which has the argument of `disk_initial` in its upper half. -/
structure BurnEnv where
  deviceBootFlag : BootFlag
  storageInited : ℕ

/-- `_NeedFillAsNotErasedYet`: must blocks filled with a value be written. -/
def needFill : Bool :=
  (match env.deviceBootFlag with
    | .emmc => fillVal != 0
    | .nand => fillVal != 0xFFFFFFFF
    | .other => true) || env.storageInited / 2 ^ 16 == 0

/-- `_spPacketStates`, the static `_filledBufValidLen`, and the memory from
`OPTIMUS_DOWNLOAD_SPARSE_INFO_FOR_VERIFY` on. -/
structure SimgState where
  leftChunkNum : ℕ
  sparseBlkSz : ℕ
  pktHeadLen : ℕ
  notWrBackSz4LongChunk : ℕ
  nextFlashAddr4LastLongChunk : ℕ
  backChunkNum : ℕ
  chunkOffset : ℕ
  filledBufValidLen : ℕ
  area : ℕ → UInt8

/-- One call of `optimus_cb_simg_write_media`. -/
structure Write where
  sector : ℕ
  data : List UInt8
deriving DecidableEq

/-- How a call can go wrong: it refuses the image with a negative number, or it reads data from
outside of its buffer. -/
inductive Fault where
  | refused
  | overread
deriving DecidableEq

/-- The fields of a `chunk_header_t` that are read. -/
structure ChunkHeader where
  chunkType : ℕ
  chunkSz : ℕ
  totalSz : ℕ

/-- The chunk header at a pointer. -/
def ChunkHeader.read (p : List UInt8) : ChunkHeader where
  chunkType := ofLe (p.take 2)
  chunkSz := ofLe ((p.drop 4).take 4)
  totalSz := ofLe ((p.drop 8).take 4)

/-- `optimus_simg_probe`. -/
def simgProbe (source : List UInt8) : Bool :=
  28 ≤ source.length && ofLe (source.take 4) == sparseHeaderMagic &&
    (ofLe ((source.drop 4).take 2) == 1 && ofLe ((source.drop 8).take 2) == 28 &&
    ofLe ((source.drop 10).take 2) == 12)

/-- `optimus_simg_parser_init`. -/
def simgParserInit (source : List UInt8) (s : SimgState) : SimgState where
  leftChunkNum := ofLe ((source.drop 20).take 4)
  sparseBlkSz := ofLe ((source.drop 12).take 4)
  pktHeadLen := ofLe ((source.drop 8).take 2)
  notWrBackSz4LongChunk := 0
  nextFlashAddr4LastLongChunk := 0
  backChunkNum := 0
  chunkOffset := 0
  filledBufValidLen := s.filledBufValidLen
  area := store s.area 0 (source.take 28)

/-! ## One chunk -/

/-- The variables of the loop over the chunks, with the writes of the call so far. -/
structure Cursor where
  st : SimgState
  pChunk : List UInt8
  unParsedBufLen : ℕ
  flashAddrStart : ℕ
  writes : List Write

/-- What the `switch` over the chunk type leaves behind: the state, `thisWriteLen`, and the
writes. -/
structure Handled where
  st : SimgState
  thisWriteLen : ℕ
  writes : List Write

/-- Leave the end of a long chunk to the next buffers. -/
def SimgState.holdBack (flashAddr : ℕ) : SimgState :=
  { s with notWrBackSz4LongChunk := len, nextFlashAddr4LastLongChunk := flashAddr }

/-- The case `CHUNK_TYPE_RAW`. -/
def rawChunk : Except Fault Handled :=
  if 12 + chunkDataLen ≠ totalSz then .error .refused
  else
    -- a chunk that does not end in this buffer is written up to the last whole slot
    let long : Bool := c.unParsedBufLen < totalSz
    let wantWrLen := if long then alignSlot (c.unParsedBufLen - 12) else chunkDataLen
    let st := if long then
        c.st.holdBack (sub32 chunkDataLen wantWrLen) ((c.flashAddrStart + wantWrLen / 512) % 2 ^ 32)
      else c.st
    if c.pChunk.length < 12 + wantWrLen then .error .overread
    else if wantWrLen ≠ 0 then
      .ok ⟨st, wantWrLen, [⟨c.flashAddrStart, (c.pChunk.drop 12).take wantWrLen⟩]⟩
    else .ok ⟨st, 0, []⟩

/-- The case `CHUNK_TYPE_DONT_CARE`. -/
def dontCareChunk : Except Fault Handled :=
  if 12 ≠ totalSz then .error .refused else .ok ⟨c.st, 0, []⟩

/-- `while (i++ < n) *temBuf++ = fillVal`, for the given number of words from word `i` on. -/
def fillWords : ℕ → ℕ → (ℕ → UInt8) → ℕ → UInt8
  | 0, _, area => area
  | n + 1, i, area => fillWords n (i + 1) (store area (fillValBuf + 4 * i) (leBytes 4 fillVal))

/-- Bring the fill buffer to hold `fillVal` in its first `len` bytes: what it holds already is kept
if its first word is the value. -/
def prepareFillBuf : SimgState :=
  let valid := if fillVal ≠ ofLe (load s.area fillValBuf 4) ∧ s.filledBufValidLen ≠ 0 then 0
    else s.filledBufValidLen
  if valid < len then
    { s with
      area := fillWords fillVal (len / 4 - valid / 4) (valid / 4) s.area
      filledBufValidLen := len }
  else { s with filledBufValidLen := valid }

/-- The `do … while (LeftDataLen)` loop that writes the fill buffer over and over. -/
def fillWrites (area : ℕ → UInt8) (filledLen : ℕ) : ℕ → ℕ → ℕ → List Write
  | 0, _, _ => []
  | fuel + 1, leftDataLen, flashAddr =>
    let thisWriteLen := min leftDataLen filledLen
    let w : Write := ⟨flashAddr, load area fillValBuf thisWriteLen⟩
    if leftDataLen - thisWriteLen = 0 then [w]
    else w :: fillWrites area filledLen fuel (leftDataLen - thisWriteLen)
      ((flashAddr + thisWriteLen / 512) % 2 ^ 32)

/-- The case `CHUNK_TYPE_FILL`. The value behind the header is read first of all. -/
def fillChunk : Except Fault Handled :=
  if c.pChunk.length < 16 then .error .overread
  else
    let fillVal := ofLe ((c.pChunk.drop 12).take 4)
    let filledLen := min chunkDataLen fillBufSz
    if 16 ≠ totalSz then .error .refused
    else if needFill env fillVal then
      let st := prepareFillBuf c.st fillVal filledLen
      -- every round but the last writes at least one byte
      .ok ⟨st, 4, fillWrites st.area filledLen (chunkDataLen + 1) chunkDataLen c.flashAddrStart⟩
    else .ok ⟨c.st, 4, []⟩

/-- The `switch` over the chunk type; `CHUNK_TYPE_CRC32` and unknown types are refused. -/
def handleChunk (h : ChunkHeader) (chunkDataLen : ℕ) : Except Fault Handled :=
  if h.chunkType = chunkTypeRaw then rawChunk c h.totalSz chunkDataLen
  else if h.chunkType = chunkTypeDontCare then dontCareChunk c h.totalSz
  else if h.chunkType = chunkTypeFill then fillChunk env c h.totalSz chunkDataLen
  else .error .refused

/-- Keep a copy of a chunk header for the verification. -/
def SimgState.backUp (head : List UInt8) : SimgState :=
  { s with
    area := store s.area (28 + 12 * s.backChunkNum) head
    backChunkNum := (s.backChunkNum + 1) % 2 ^ 32 }

end

theorem SimgState.backUp_area (s : SimgState) (head : List UInt8) :
    (s.backUp head).area = store s.area (28 + 12 * s.backChunkNum) head := rfl

theorem SimgState.backUp_backChunkNum (s : SimgState) (head : List UInt8) :
    (s.backUp head).backChunkNum = (s.backChunkNum + 1) % 2 ^ 32 := rfl

/-- The body of the loop over the chunks. -/
def chunkStep (env : BurnEnv) (c : Cursor) : Except Fault Cursor :=
  if c.pChunk.length < 12 then .error .overread
  else
    let h := ChunkHeader.read c.pChunk
    let chunkDataLen := h.chunkSz * c.st.sparseBlkSz % 2 ^ 32
    match handleChunk env c h chunkDataLen with
    | .error e => .error e
    | .ok r => .ok
        { st := r.st.backUp (c.pChunk.take 12)
          pChunk := c.pChunk.drop h.totalSz
          unParsedBufLen := sub32 c.unParsedBufLen (12 + r.thisWriteLen)
          flashAddrStart := (c.flashAddrStart + chunkDataLen / 512) % 2 ^ 32
          writes := c.writes ++ r.writes }

/-- The loop over the chunks; the first argument is `leftChunkNum`. -/
def chunkLoop (env : BurnEnv) : ℕ → Cursor → Except Fault Cursor
  | 0, c => .ok { c with st := { c.st with leftChunkNum := 0 } }
  | left + 1, c =>
    if c.st.notWrBackSz4LongChunk ≠ 0 ∨ c.unParsedBufLen < 12 then
      .ok { c with st := { c.st with leftChunkNum := left + 1 } }
    else
      match chunkStep env c with
      | .error e => .error e
      | .ok c' => chunkLoop env left c'

/-! ## One call -/

/-- What a call returns: the state, the returned number of sectors, `*unParsedDataLen`, and the
writes. -/
structure CallResult where
  st : SimgState
  ret : ℤ
  unParsedDataLen : ℕ
  writes : List Write

/-- The part of a call from the loop on. -/
def simgParse (env : BurnEnv) (flashAddrInSec : ℕ) (c : Cursor) : Except Fault CallResult :=
  match chunkLoop env c.st.leftChunkNum c with
  | .error e => .error e
  | .ok c' => .ok
      { st := { c'.st with pktHeadLen := 0 }
        ret := toInt32 (sub32 c'.flashAddrStart flashAddrInSec)
        unParsedDataLen := c'.unParsedBufLen
        writes := c'.writes }

/-- `optimus_simg_to_media`. -/
def simgToMedia (env : BurnEnv) (s : SimgState) (pkt : List UInt8) (flashAddrInSec : ℕ) :
    Except Fault CallResult :=
  let notWr := s.notWrBackSz4LongChunk
  let unParsed := sub32 pkt.length s.pktHeadLen
  if notWr ≠ 0 ∧ s.pktHeadLen = 0 then
    -- the rest of a chunk that an earlier buffer cut
    let writeLen := if pkt.length ≤ notWr then pkt.length else notWr
    let thisWriteLen := if writeLen < notWr then alignSlot writeLen else writeLen
    let w : Write := ⟨s.nextFlashAddr4LastLongChunk, pkt.take thisWriteLen⟩
    let notWr' := sub32 notWr thisWriteLen
    if pkt.length ≤ notWr then .ok
      { st := s.holdBack notWr' ((s.nextFlashAddr4LastLongChunk + thisWriteLen / 512) % 2 ^ 32)
        ret := 0
        unParsedDataLen := sub32 unParsed thisWriteLen
        writes := [w] }
    else simgParse env flashAddrInSec
      ⟨s.holdBack notWr' s.nextFlashAddr4LastLongChunk, pkt.drop notWr, sub32 unParsed thisWriteLen,
        flashAddrInSec, [w]⟩
  else simgParse env flashAddrInSec ⟨s, pkt.drop s.pktHeadLen, unParsed, flashAddrInSec, []⟩

/-! ## The whole image -/

/-- The state of a download: that of the parser, `nextMediaOffset`, the unparsed end of the last
buffer, and all writes so far. -/
structure Download where
  st : SimgState
  nextMediaOffset : ℕ
  tail : List UInt8
  writes : List Write

/-- The download when the parser has been initialised from the file header. -/
def Download.start (source : List UInt8) (s : SimgState) : Download :=
  ⟨simgParserInit source s, 0, [], []⟩

/-- What `optimus_download_sparse_image` makes of the result of the parser on the given data. It
fails when the parser does, or when it is told that more is unparsed than it has passed on. -/
def Download.accept (d : Download) (data : List UInt8) : Except Fault CallResult → Option Download
  | .error _ => none
  | .ok r =>
    if r.ret < 0 ∨ data.length < r.unParsedDataLen then none
    else some
      { st := r.st
        nextMediaOffset := d.nextMediaOffset + r.ret.toNat * 512
        tail := data.drop (data.length - r.unParsedDataLen)
        writes := d.writes ++ r.writes }

/-- `optimus_download_sparse_image` on the tail of the last buffer and the next piece of the
image. -/
def downloadSparseImage (env : BurnEnv) (d : Download) (piece : List UInt8) : Option Download :=
  d.accept (d.tail ++ piece) (simgToMedia env d.st (d.tail ++ piece) (d.nextMediaOffset / 512 % 2 ^ 32))

/-- The pieces of an image one after the other. -/
def downloadPieces (env : BurnEnv) : Download → List (List UInt8) → Option Download
  | d, [] => some d
  | d, piece :: pieces =>
    match downloadSparseImage env d piece with
    | none => none
    | some d' => downloadPieces env d' pieces

end UBoot.Burning
