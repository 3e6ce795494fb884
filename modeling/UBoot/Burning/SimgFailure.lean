import UBoot.Burning.SimgTrace

/-!
# Writes that fail

The burn of a sparse image on media where any write may fail. A write returns the number of bytes
that were written, and has failed if this is not the number asked for. A failed write of data ends
the call with a negative number. In a `CHUNK_TYPE_FILL` chunk it only ends the loop that fills, and
the call goes on with the next chunk.

Which writes are asked for can be told from the headers of the chunks in the buffer, so whether a
failure is hidden can be told from these and from the pattern of failures.
-/

namespace UBoot.Burning

open UBoot.Common List

/-! ### The model -/

/-- A write that was issued, whether it is one of a `CHUNK_TYPE_FILL` chunk, and the number of bytes
written. -/
structure Issue where
  write : Write
  fill : Bool
  wrote : ℕ

/-- All bytes were written. -/
def Issue.Succeeded (i : Issue) : Prop := i.wrote = i.write.data.length

instance (i : Issue) : Decidable i.Succeeded := inferInstanceAs (Decidable (_ = _))

/-- The variables of the loop over the chunks, with the writes that were issued. -/
structure Attempt where
  st : SimgState
  pChunk : List UInt8
  unParsedBufLen : ℕ
  flashAddrStart : ℕ
  issues : List Issue

/-- The variables without the writes. -/
def Attempt.cursor (a : Attempt) : Cursor :=
  ⟨a.st, a.pChunk, a.unParsedBufLen, a.flashAddrStart, []⟩

section Model

variable (env : BurnEnv) (wrote : ℕ → ℕ)

/-- The `do … while (LeftDataLen)` loop, which a failure ends. The next write is number `k` of the
call. -/
def fillWritesOn (area : ℕ → UInt8) (filledLen : ℕ) : ℕ → ℕ → ℕ → ℕ → List Issue
  | 0, _, _, _ => []
  | fuel + 1, k, leftDataLen, flashAddr =>
    let thisWriteLen := min leftDataLen filledLen
    let i : Issue := ⟨⟨flashAddr, load area fillValBuf thisWriteLen⟩, true, wrote k⟩
    if wrote k ≠ thisWriteLen then [i]
    else if leftDataLen - thisWriteLen = 0 then [i]
    else i :: fillWritesOn area filledLen fuel (k + 1) (leftDataLen - thisWriteLen)
      ((flashAddr + thisWriteLen / 512) % 2 ^ 32)

/-- The case `CHUNK_TYPE_FILL`. -/
def fillChunkOn (a : Attempt) (totalSz chunkDataLen : ℕ) : Except Fault (Handled × List Issue) :=
  if a.pChunk.length < 16 then .error .overread
  else
    let fillVal := ofLe ((a.pChunk.drop 12).take 4)
    let filledLen := min chunkDataLen fillBufSz
    if 16 ≠ totalSz then .error .refused
    else if needFill env fillVal then
      let st := prepareFillBuf a.st fillVal filledLen
      let issues := fillWritesOn wrote st.area filledLen (chunkDataLen + 1) a.issues.length chunkDataLen
        a.flashAddrStart
      .ok (⟨st, 4, issues.map Issue.write⟩, issues)
    else .ok (⟨a.st, 4, []⟩, [])

/-- The case `CHUNK_TYPE_RAW`: as without failures, but a failed write ends the call. -/
def rawChunkOn (a : Attempt) (totalSz chunkDataLen : ℕ) : Except Fault (Handled × List Issue) :=
  match rawChunk a.cursor totalSz chunkDataLen with
  | .error e => .error e
  | .ok r =>
    match r.writes with
    | [] => .ok (r, [])
    | w :: _ =>
      if wrote a.issues.length ≠ w.data.length then .error .refused
      else .ok (r, [⟨w, false, wrote a.issues.length⟩])

/-- The `switch` over the chunk type. -/
def handleChunkOn (a : Attempt) (h : ChunkHeader) (chunkDataLen : ℕ) :
    Except Fault (Handled × List Issue) :=
  if h.chunkType = chunkTypeRaw then rawChunkOn wrote a h.totalSz chunkDataLen
  else if h.chunkType = chunkTypeDontCare then (dontCareChunk a.cursor h.totalSz).map (·, [])
  else if h.chunkType = chunkTypeFill then fillChunkOn env wrote a h.totalSz chunkDataLen
  else .error .refused

/-- The body of the loop over the chunks. -/
def chunkStepOn (a : Attempt) : Except Fault Attempt :=
  if a.pChunk.length < 12 then .error .overread
  else
    let h := ChunkHeader.read a.pChunk
    let chunkDataLen := h.chunkSz * a.st.sparseBlkSz % 2 ^ 32
    match handleChunkOn env wrote a h chunkDataLen with
    | .error e => .error e
    | .ok (r, issues) => .ok
        { st := r.st.backUp (a.pChunk.take 12)
          pChunk := a.pChunk.drop h.totalSz
          unParsedBufLen := sub32 a.unParsedBufLen (12 + r.thisWriteLen)
          flashAddrStart := (a.flashAddrStart + chunkDataLen / 512) % 2 ^ 32
          issues := a.issues ++ issues }

/-- The loop over the chunks. -/
def chunkLoopOn : ℕ → Attempt → Except Fault Attempt
  | 0, a => .ok { a with st := { a.st with leftChunkNum := 0 } }
  | left + 1, a =>
    if a.st.notWrBackSz4LongChunk ≠ 0 ∨ a.unParsedBufLen < 12 then
      .ok { a with st := { a.st with leftChunkNum := left + 1 } }
    else
      match chunkStepOn env wrote a with
      | .error e => .error e
      | .ok a' => chunkLoopOn left a'

/-- The part of a call from the loop on: the number that is returned, and the writes. -/
def simgParseOn (flashAddrInSec : ℕ) (a : Attempt) : Except Fault (ℤ × List Issue) :=
  match chunkLoopOn env wrote a.st.leftChunkNum a with
  | .error e => .error e
  | .ok a' => .ok (toInt32 (sub32 a'.flashAddrStart flashAddrInSec), a'.issues)

/-- `optimus_simg_to_media`, where write number `k` of the call returns `wrote k`. -/
def simgToMediaOn (s : SimgState) (pkt : List UInt8) (flashAddrInSec : ℕ) :
    Except Fault (ℤ × List Issue) :=
  let notWr := s.notWrBackSz4LongChunk
  let unParsed := sub32 pkt.length s.pktHeadLen
  if notWr ≠ 0 ∧ s.pktHeadLen = 0 then
    let writeLen := if pkt.length ≤ notWr then pkt.length else notWr
    let thisWriteLen := if writeLen < notWr then alignSlot writeLen else writeLen
    let i : Issue := ⟨⟨s.nextFlashAddr4LastLongChunk, pkt.take thisWriteLen⟩, false, wrote 0⟩
    if wrote 0 ≠ thisWriteLen then .error .refused
    else if pkt.length ≤ notWr then .ok (0, [i])
    else simgParseOn env wrote flashAddrInSec
      ⟨s.holdBack (sub32 notWr thisWriteLen) s.nextFlashAddr4LastLongChunk, pkt.drop notWr,
        sub32 unParsed thisWriteLen, flashAddrInSec, [i]⟩
  else simgParseOn env wrote flashAddrInSec ⟨s, pkt.drop s.pktHeadLen, unParsed, flashAddrInSec, []⟩

/-- A call that returns a number that is not negative has issued no write that failed. -/
def Reports (s : SimgState) (pkt : List UInt8) (flashAddrInSec : ℕ) : Prop :=
  ∀ ret issues, simgToMediaOn env wrote s pkt flashAddrInSec = .ok (ret, issues) → 0 ≤ ret →
    ∀ i ∈ issues, i.Succeeded

end Model

/-! ### The headers in the buffer -/

/-- What the header of a chunk asks for: how far the media address goes on, the lengths of the
writes, whether they are those of a `CHUNK_TYPE_FILL` chunk, and the bytes that are taken from the
buffer behind the header. -/
structure ChunkPlan where
  sectors : ℕ
  fill : Bool
  lens : List ℕ
  taken : ℕ

/-- The raw chunk at the front of `p` goes on in the next buffer. -/
def Cut (p : List UInt8) (unParsed : ℕ) : Prop :=
  (ChunkHeader.read p).chunkType = chunkTypeRaw ∧ unParsed < (ChunkHeader.read p).totalSz

instance (p : List UInt8) (unParsed : ℕ) : Decidable (Cut p unParsed) := inferInstanceAs
    (Decidable (_ ∧ _))

section Pattern

variable (wrote : ℕ → ℕ)

/-- Writes of these lengths, up to the first that fails: the number of the next write, and whether
all succeed. -/
def attempts : ℕ → List ℕ → ℕ × Bool
  | k, [] => (k, true)
  | k, n :: ns => if wrote k = n then attempts (k + 1) ns else (k + 1, false)

/-- Write number `k` and the following ones are those of the given lengths, up to the first that
fails. -/
structure Made (k : ℕ) (lens : List ℕ) (issues : List Issue) : Prop where
  length : k + issues.length = (attempts wrote k lens).1
  succeeded : (∀ i ∈ issues, i.Succeeded) ↔ (attempts wrote k lens).2 = true

end Pattern

/-! ### The call follows the headers -/

section Follow

variable {env : BurnEnv} {wrote : ℕ → ℕ} {k n : ℕ} {lens : List ℕ} {issues : List Issue} {a a' : Attempt}

/-- A write that succeeds, and the following ones. -/
theorem Made.cons {w : Write} {fill : Bool} (h : Made wrote (k + 1) lens issues)
    (hlen : w.data.length = n)
    (hok : wrote k = n) : Made wrote k (n :: lens) (⟨w, fill, wrote k⟩ :: issues) := by
  have hone : (⟨w, fill, wrote k⟩ : Issue).Succeeded := hok.trans hlen.symm
  refine ⟨?_, ?_⟩
  · rw [attempts, if_pos hok, ← h.length, length_cons]
    omega
  · rw [attempts, if_pos hok, ← h.succeeded, forall_mem_cons, and_iff_right hone]

/-- What the round of a chunk leaves behind. -/
structure Next (wrote : ℕ → ℕ) (a : Attempt) (c : ChunkPlan) (a' : Attempt) : Prop where
  blkSz : a'.st.sparseBlkSz = a.st.sparseBlkSz
  cut : a'.st.notWrBackSz4LongChunk ≠ 0 ↔ Cut a.pChunk a.unParsedBufLen
  pChunk : a'.pChunk = a.pChunk.drop (ChunkHeader.read a.pChunk).totalSz
  unParsed : a'.unParsedBufLen = sub32 a.unParsedBufLen (12 + c.taken)
  flash : a'.flashAddrStart = (a.flashAddrStart + c.sectors) % 2 ^ 32
  issues : ∃ new, a'.issues = a.issues ++ new ∧ Made wrote a.issues.length c.lens new

end Follow

/-! ### What is reported -/

end UBoot.Burning
