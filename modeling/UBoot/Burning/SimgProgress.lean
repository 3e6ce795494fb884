import Mathlib.Algebra.GroupWithZero.Nat
import UBoot.Burning.SimgFill

/-!
# How far a sparse image has been burned

The abstract state of a burn: which chunks have been parsed, which are still to come, what is on the
media, and which bytes of the last parsed chunk are still to be written. `Represents` ties it to the
parser's own numbers, and `Represents.parse_chunk` is the one step that all kinds of chunks take.
-/

namespace UBoot.Burning

open UBoot.Common List

/-! ## What is written -/

/-- The bytes of a chunk that are written: values that an erased device holds anyway are not. -/
def Chunk.written (env : BurnEnv) (blkSz : ℕ) (c : Chunk) : List (Option UInt8) :=
  match c.body with
  | .fill value => if needFill env value then c.expand blkSz else List.replicate (c.blocks * blkSz) none
  | _ => c.expand blkSz

/-- The bytes of an image that are written. -/
def SparseImage.written (env : BurnEnv) (img : SparseImage) : List (Option UInt8) :=
  img.chunks.flatMap (Chunk.written env img.blkSz)

variable {c : Chunk}

theorem Chunk.length_written {blkSz : ℕ} (env : BurnEnv) (h : c.WellFormed blkSz)
    (hblk : 512 ∣ blkSz) : (c.written env blkSz).length = c.blocks * blkSz := by
  rw [written]
  split
  · split
    · exact length_expand h hblk
    · exact length_replicate
  · exact length_expand h hblk

theorem SparseImage.length_written (env : BurnEnv) (img : SparseImage) :
    (img.written env).length = img.expanded.length := by
  rw [written, expanded, length_flatMap, length_flatMap]
  refine congrArg sum (map_congr_left fun c hc => ?_)
  rw [Chunk.length_written env (img.wellFormed c hc) img.blkSz_dvd,
    Chunk.length_expand (img.wellFormed c hc) img.blkSz_dvd]

theorem SparseImage.length_expanded (img : SparseImage) :
    img.expanded.length = (img.chunks.map fun c => c.blocks * img.blkSz).sum := by
  rw [expanded, length_flatMap]
  exact congrArg sum (map_congr_left fun c hc =>
    Chunk.length_expand (img.wellFormed c hc) img.blkSz_dvd)

/-- When every fill is needed, all given bytes are written. -/
theorem SparseImage.written_eq_expanded {env : BurnEnv} (henv : ∀ value, needFill env value = true)
    (img : SparseImage) : img.written env = img.expanded := by
  refine congrArg (img.chunks.flatMap ·) (funext fun c => ?_)
  rw [Chunk.written]
  split
  · rw [if_pos (henv _)]
  · rfl

/-! ## Where buffers end -/

/-- Is the chunk of type `CHUNK_TYPE_FILL`. -/
def Chunk.isFill (c : Chunk) : Bool :=
  match c.body with
  | .fill _ => true
  | _ => false

/-- The first `e` bytes of the chunks end between the header and the end of the value of a
`CHUNK_TYPE_FILL` chunk. -/
def CutsFillValue : List Chunk → ℕ → Prop
  | [], _ => False
  | c :: cs, e => (c.isFill = true ∧ 12 ≤ e ∧ e < 16) ∨ (c.totalSz ≤ e ∧ CutsFillValue cs (e - c.totalSz))

instance instDecidableCutsFillValue : (cs : List Chunk) → (e : ℕ) → Decidable (CutsFillValue cs e)
  | [], _ => .isFalse id
  | c :: cs, e =>
    have : Decidable (CutsFillValue cs (e - c.totalSz)) := instDecidableCutsFillValue cs _
    inferInstanceAs (Decidable ((c.isFill = true ∧ 12 ≤ e ∧ e < 16) ∨
      (c.totalSz ≤ e ∧ CutsFillValue cs (e - c.totalSz))))

/-- The sectors of the chunks whose headers lie in the first `e` bytes of the chunks. -/
def startedSectors (blkSz : ℕ) : List Chunk → ℕ → ℕ
  | [], _ => 0
  | c :: cs, e => if e < 12 then 0
      else c.blocks * blkSz / 512 + startedSectors blkSz cs (e - c.totalSz)

theorem isFill_iff : c.isFill = true ↔ ∃ value, c.body = .fill value := by
  rw [Chunk.isFill]
  split
  · next value hb => exact ⟨fun _ => ⟨value, hb⟩, fun _ => rfl⟩
  · next hb =>
    refine ⟨fun h => ?_, fun ⟨value, h⟩ => absurd h (hb value)⟩
    cases h

variable {e n rest : ℕ} {cs : List Chunk}

section

variable (cs)

theorem not_cutsFillValue_of_lt (he : e < 12) : ¬ CutsFillValue cs e := by
  rcases cs with _ | ⟨c, cs⟩
  · exact id
  rintro (⟨_, hge, _⟩ | ⟨hle, _⟩)
  · omega
  · have := c.le_totalSz
    omega

theorem startedSectors_of_lt (blkSz : ℕ) (cs : List Chunk) (he : e < 12) :
    startedSectors blkSz cs e = 0 := by
  cases cs with
  | nil => rfl
  | cons c cs => rw [startedSectors, if_pos he]

theorem not_cutsFillValue_of_no_fill (hcs : ∀ c ∈ cs, c.isFill = false) (e : ℕ) :
    ¬ CutsFillValue cs e := by
  induction cs generalizing e with
  | nil => exact id
  | cons c cs ih =>
    rintro (⟨hfill, _⟩ | ⟨_, hcut⟩)
    · rw [hcs c mem_cons_self] at hfill
      cases hfill
    · exact ih (forall_mem_cons.mp hcs).2 _ hcut

theorem startedSectors_le_sum (blkSz : ℕ) (cs : List Chunk) (e : ℕ) :
    startedSectors blkSz cs e ≤ (cs.map fun c => c.blocks * blkSz / 512).sum := by
  induction cs generalizing e with
  | nil => exact le_rfl
  | cons c cs ih =>
    have hih := ih (e - c.totalSz)
    rw [startedSectors, map_cons, sum_cons]
    split <;> omega

/-- Behind the first `n` bytes of a chunk, with `rest` bytes of it still to come; only a chunk that
is not a fill can be left in the middle. -/
theorem cutsFillValue_cons_add (hsize : n + rest = c.totalSz)
    (hrest : rest ≠ 0 → c.isFill = false) (cs : List Chunk) (e : ℕ) :
    CutsFillValue (c :: cs) (n + e) ↔ CutsFillValue cs (e - rest) := by
  have hfill : ¬ (c.isFill = true ∧ 12 ≤ n + e ∧ n + e < 16) := by
    rintro ⟨hf, _, hlt⟩
    obtain ⟨value, hb⟩ := isFill_iff.mp hf
    have h16 := Chunk.totalSz_fill hb
    by_cases h0 : rest = 0
    · omega
    · rw [hrest h0] at hf
      cases hf
  rw [CutsFillValue, show n + e - c.totalSz = e - rest by omega]
  constructor
  · rintro (h | ⟨_, h⟩)
    · exact absurd h hfill
    · exact h
  · intro h
    refine .inr ⟨?_, h⟩
    by_contra hlt
    exact not_cutsFillValue_of_lt cs (show e - rest < 12 by omega) h

/-! ## The abstract state -/

/-- How far the image has been burned: the parsed chunks and the others, the data of the last parsed
chunk that is still to be written, the media up to there, and the number of bytes of the chunks in
front of that. -/
structure Progress where
  parsed : List Chunk
  rest : List Chunk
  pending : List UInt8
  out : List (Option UInt8)
  offset : ℕ

/-- The bytes of the image that are still needed. -/
def Progress.remaining (p : Progress) : List UInt8 := p.pending ++ p.rest.flatMap Chunk.encode

/-- The parser, the writes so far and the flash address are those of the given progress. -/
structure Represents (img : SparseImage) (env : BurnEnv) (p : Progress) (st : SimgState)
    (ws : List Write) (flash : ℕ) : Prop where
  chunks : img.chunks = p.parsed ++ p.rest
  content : img.written env = p.out ++ (p.pending.map some ++ p.rest.flatMap (Chunk.written env img.blkSz))
  writes : WritesExactly ws p.out
  sectors : flash * 512 = p.out.length + p.pending.length
  pending_lt : p.pending.length < 2 ^ 32
  notWr : st.notWrBackSz4LongChunk = p.pending.length
  nextFlash : p.pending ≠ [] → st.nextFlashAddr4LastLongChunk * 512 = p.out.length
  blkSz : st.sparseBlkSz = img.blkSz
  chunkOffset : st.chunkOffset = 0
  backed : st.backChunkNum = p.parsed.length
  area : Contains st.area 0 (img.header ++ p.parsed.flatMap Chunk.header)
  fill : FillOk st
  cut : ∀ e, CutsFillValue img.chunks (p.offset + e) ↔ CutsFillValue p.rest (e - p.pending.length)
  started : ∀ e, startedSectors img.blkSz img.chunks (p.offset + e)
    = flash + startedSectors img.blkSz p.rest (e - p.pending.length)

/-- The headers fit the area in front of the fill buffer, and the sectors fit 32 bits. -/
structure SparseImage.Fits (img : SparseImage) : Prop where
  headers : img.chunks.length ≤ 174760
  sectors : img.expanded.length < 2 ^ 41

variable {img : SparseImage} {env : BurnEnv} {p : Progress} {st : SimgState} {ws : List Write} {flash : ℕ}

theorem length_flatMap_header : (cs.flatMap Chunk.header).length = 12 * cs.length := by
  simp [Chunk.length_header, mul_comm]

end

variable (h : Represents img env p st ws flash)
include h

/-- The part of the image that is on the media or pending ends within the image. -/
theorem Represents.flash_add_le (hfits : img.Fits) (hrest : p.rest = c :: cs) :
    flash + c.blocks * img.blkSz / 512 < 2 ^ 32 := by
  have hc := Chunk.length_written env (img.wellFormed c (by rw [h.chunks, hrest]; simp)) img.blkSz_dvd
  have hlen := congrArg length h.content
  rw [img.length_written env, hrest] at hlen
  simp only [length_append, length_map, flatMap_cons] at hlen
  have hflash := h.sectors
  have hlt := hfits.sectors
  omega

/-- The step that parses a chunk. `n` bytes of it are used up, `o` of what it stands for gets on the
media, and `pending` of it stays behind; `st'` is the state before the header is backed up. -/
theorem Represents.parse_chunk (hfits : img.Fits) (hrest : p.rest = c :: cs)
    (hnone : p.pending = [])
    {st' : SimgState} {ws' : List Write} {o : List (Option UInt8)} {pending : List UInt8}
    (hwritten : c.written env img.blkSz = o ++ pending.map some)
    (hn : 12 ≤ n) (hsize : n + pending.length = c.totalSz) (hraw : pending ≠ [] → c.isFill = false)
    (hwrites : WritesExactly (ws ++ ws') (p.out ++ o))
      (hnotWr : st'.notWrBackSz4LongChunk = pending.length)
    (hnext : pending ≠ [] → st'.nextFlashAddr4LastLongChunk * 512 = (p.out ++ o).length)
    (hblk : st'.sparseBlkSz = st.sparseBlkSz) (hoff : st'.chunkOffset = st.chunkOffset)
    (hback : st'.backChunkNum = st.backChunkNum)
    (harea : ∀ a < fillValBuf, st'.area a = st.area a) (hfill : FillOk st') :
    Represents img env ⟨p.parsed ++ [c], cs, pending, p.out ++ o, p.offset + n⟩
      (st'.backUp c.header) (ws ++ ws') (flash + c.blocks * img.blkSz / 512) := by
  have hmem : c ∈ img.chunks := by rw [h.chunks, hrest]; simp
  have hlen := Chunk.length_written env (img.wellFormed c hmem) img.blkSz_dvd
  rw [hwritten, length_append, length_map] at hlen
  -- the header goes right behind those of the parsed chunks, below the fill buffer
  have hroom : 28 + 12 * p.parsed.length + 12 ≤ fillValBuf := by
    have hcount := congrArg length h.chunks
    rw [hrest, length_append, length_cons] at hcount
    have := hfits.headers
    rw [fillValBuf]
    omega
  have hback' : st'.backChunkNum = p.parsed.length := hback.trans h.backed
  have hheads : (img.header ++ p.parsed.flatMap Chunk.header).length = 28 + 12 * p.parsed.length := by
    rw [length_append, img.length_header, length_flatMap_header]
  refine
    { chunks := ?_, content := ?_, writes := hwrites, sectors := ?_, pending_lt := ?_, notWr := hnotWr,
      nextFlash := hnext, blkSz := hblk.trans h.blkSz, chunkOffset := hoff.trans h.chunkOffset,
        backed := ?_, area := ?_,
      fill := ?_, cut := ?_, started := ?_ }
  · rw [h.chunks, hrest, append_assoc, singleton_append]
  · rw [h.content, hnone, hrest, flatMap_cons, hwritten]
    simp
  · have hflash := h.sectors
    have hdvd := c.dvd_size img.blkSz_dvd
    rw [hnone] at hflash
    rw [Nat.add_mul, Nat.div_mul_cancel hdvd, hflash, ← hlen, length_append]
    exact (Nat.add_assoc _ _ _).symm
  · exact Nat.lt_of_le_of_lt (show pending.length ≤ c.totalSz by omega) (img.wellFormed c hmem).total_lt
  · have hlt : p.parsed.length + 1 < 2 ^ 32 := by
      rw [fillValBuf] at hroom
      omega
    rw [SimgState.backUp_backChunkNum, hback', Nat.mod_eq_of_lt hlt, length_append, length_singleton]
  · rw [SimgState.backUp_area, hback', flatMap_append, ← append_assoc, contains_append,
      hheads, Nat.zero_add]
    refine ⟨h.area.congr fun a _ ha => ?_, contains_store _ _ _⟩
    rw [hheads, Nat.zero_add] at ha
    rw [store_of_outside _ _ _ (.inl ha), harea a (by omega)]
  · obtain ⟨value, hvalue, hbuf⟩ := hfill
    refine ⟨value, hvalue, hbuf.congr fun a ha _ => store_of_outside _ _ _ (.inr ?_)⟩
    rw [c.length_header]
    omega
  · intro e
    rw [show p.offset + n + e = p.offset + (n + e) by omega, h.cut, hnone, hrest, length_nil,
      Nat.sub_zero, cutsFillValue_cons_add hsize (fun hne => hraw fun h0 => hne (by simp [h0]))]
  · intro e
    rw [show p.offset + n + e = p.offset + (n + e) by omega, h.started, hnone, hrest, length_nil,
      Nat.sub_zero, startedSectors, if_neg (by omega), show n + e - c.totalSz = e -
      pending.length by omega,
      add_assoc]

end UBoot.Burning
