import UBoot.Burning.SimgProgress

/-!
# Parsing the chunks of one buffer

What one round of the loop over the chunks does to a burn, for each kind of chunk, and what the
whole loop does. The loop parses every chunk whose header is in the buffer, and it goes wrong
exactly when the buffer ends in front of the end of a fill value whose header it has.
-/

namespace UBoot.Burning

open UBoot.Common List

/-! ## Reading a header -/

theorem ChunkHeader.read_header {c : Chunk} {blkSz : ℕ} (h : c.WellFormed blkSz) (q : List UInt8) :
    ChunkHeader.read (c.header ++ q) = ⟨c.chunkType, c.blocks, c.totalSz⟩ := by
  have htype : c.chunkType < 256 ^ 2 := by
    rw [Chunk.chunkType]
    split <;> decide
  have hblocks : c.blocks < 256 ^ 4 := h.blocks_lt
  have htotal : c.totalSz < 256 ^ 4 := h.total_lt
  have h0 : (c.header ++ q).take 2 = leBytes 2 c.chunkType := by simp [Chunk.header]
  have h4 : ((c.header ++ q).drop 4).take 4 = leBytes 4 c.blocks := by
    simp [Chunk.header, drop_append, take_append]
  have h8 : ((c.header ++ q).drop 8).take 4 = leBytes 4 c.totalSz := by
    simp [Chunk.header, drop_append, drop_eq_nil_of_le]
  rw [read, h0, h4, h8, ofLe_leBytes htype, ofLe_leBytes hblocks, ofLe_leBytes htotal]

/-! ## The kinds of chunks -/

/-- The write of some data, if there is any. -/
def dataWrites (flash : ℕ) (l : List UInt8) : List Write := if l = [] then [] else [⟨flash, l⟩]

theorem WritesExactly.append_dataWrites {ws : List Write} {out : List (Option UInt8)} {flash : ℕ}
    (h : WritesExactly ws out) (hflash : flash * 512 = out.length) (l : List UInt8) :
    WritesExactly (ws ++ dataWrites flash l) (out ++ l.map some) := by
  rw [dataWrites]
  split
  · next hl => simpa [hl] using h
  · exact h.append_write hflash

theorem alignSlot_le (n : ℕ) : alignSlot n ≤ n := Nat.div_mul_le_self n 65536

theorem sub_alignSlot_lt (n : ℕ) : n - alignSlot n < 65536 := by
  rw [alignSlot]
  omega

theorem dvd_alignSlot (n : ℕ) : 512 ∣ alignSlot n := Nat.dvd_trans (by decide)
    (Nat.dvd_mul_left 65536 _)

theorem sub32_of_le {a b : ℕ} (ha : a < 2 ^ 32) (hb : b ≤ a) : sub32 a b = a - b := by
  rw [sub32]
  omega

section Raw

variable {c : Cursor} {n : ℕ}

private theorem take_drop_eq_nil {w : ℕ} (hw : 12 + w ≤ c.pChunk.length) :
    (c.pChunk.drop 12).take w = [] ↔ w = 0 := by
  rw [← length_eq_zero_iff, length_take, length_drop]
  omega

variable (hlen : c.unParsedBufLen = c.pChunk.length)
include hlen

/-- A `CHUNK_TYPE_RAW` chunk that is in the buffer is written. -/
theorem rawChunk_whole (h : 12 + n ≤ c.pChunk.length) :
    rawChunk c (12 + n) n = .ok ⟨c.st, n, dataWrites c.flashAddrStart ((c.pChunk.drop 12).take n)⟩ := by
  have hshort : ¬ c.unParsedBufLen < 12 + n := by omega
  rw [rawChunk, if_neg (by simp)]
  simp only [hshort, decide_false, Bool.false_eq_true, if_false]
  rw [if_neg (by omega), dataWrites]
  by_cases hn : n = 0
  · simp [hn]
  · rw [if_pos hn, if_neg ((take_drop_eq_nil h).not.mpr hn)]

/-- One that goes on behind the buffer is written up to the last whole slot. -/
theorem rawChunk_long (h12 : 12 ≤ c.pChunk.length)
    (h : c.pChunk.length < 12 + n) {w : ℕ} (hw : w = alignSlot (c.pChunk.length - 12)) :
    rawChunk c (12 + n) n = .ok ⟨c.st.holdBack (sub32 n w) ((c.flashAddrStart + w / 512) % 2 ^ 32),
        w, dataWrites c.flashAddrStart ((c.pChunk.drop 12).take w)⟩ := by
  have hle : 12 + w ≤ c.pChunk.length := by
    have := alignSlot_le (c.pChunk.length - 12)
    omega
  rw [rawChunk, if_neg (by simp), hlen]
  simp only [h, decide_true, if_true, ← hw]
  rw [if_neg (by omega), dataWrites]
  by_cases hn : w = 0
  · rw [if_neg (by simp [hn]), if_pos ((take_drop_eq_nil hle).mpr hn), hn]
  · rw [if_pos hn, if_neg ((take_drop_eq_nil hle).not.mpr hn)]

end Raw

/-! ## One round of the loop -/

/-- The loop is about to parse the next chunk: `future` is what comes behind the buffer. -/
structure CursorAt (img : SparseImage) (env : BurnEnv) (ws : List Write) (future : List UInt8)
    (p : Progress) (c : Cursor) : Prop where
  rep : Represents img env p c.st (ws ++ c.writes) c.flashAddrStart
  pending : p.pending = []
  bytes : c.pChunk ++ future = p.rest.flatMap Chunk.encode
  unParsed : c.unParsedBufLen = c.pChunk.length
  lt : c.pChunk.length < 2 ^ 32

/-- The burn has got on by a part of the buffer `b`, and the rest of it is reported as unparsed. -/
structure Advanced (img : SparseImage) (env : BurnEnv) (ws : List Write) (future b : List UInt8)
    (offset : ℕ) (p : Progress) (c : Cursor) : Prop where
  rep : Represents img env p c.st (ws ++ c.writes) c.flashAddrStart
  le : c.unParsedBufLen ≤ b.length
  offset : p.offset + c.unParsedBufLen = offset + b.length
  bytes : b.drop (b.length - c.unParsedBufLen) ++ future = p.remaining

variable {img : SparseImage} {env : BurnEnv} {ws : List Write} {future : List UInt8} {p : Progress}
  {c : Cursor} {k : Chunk} {cs : List Chunk}

/-- The variables of the loop after a chunk that the `switch` over the chunk type has handled. -/
def Cursor.after (c : Cursor) (k : Chunk) (blkSz : ℕ) (r : Handled) : Cursor where
  st := r.st.backUp k.header
  pChunk := c.pChunk.drop k.totalSz
  unParsedBufLen := sub32 c.pChunk.length (12 + r.thisWriteLen)
  flashAddrStart := c.flashAddrStart + k.blocks * blkSz / 512
  writes := c.writes ++ r.writes

theorem CursorAt.notWr (hc : CursorAt img env ws future p c) : c.st.notWrBackSz4LongChunk = 0 := by
  rw [hc.rep.notWr, hc.pending, length_nil]

theorem CursorAt.flash (hc : CursorAt img env ws future p c) :
    c.flashAddrStart * 512 = p.out.length := by
  have h := hc.rep.sectors
  rwa [hc.pending, length_nil, add_zero] at h

section Round

variable (hc : CursorAt img env ws future p c) (hfits : img.Fits) (hrest : p.rest = k :: cs)
include hc hrest

theorem CursorAt.wellFormed : k.WellFormed img.blkSz := img.wellFormed k
    (by rw [hc.rep.chunks, hrest]; simp)

theorem CursorAt.header (h12 : 12 ≤ c.pChunk.length) :
    c.pChunk.take 12 = k.header ∧ c.pChunk.drop 12 ++ future = k.payload ++ cs.flatMap Chunk.encode := by
  have hbytes : c.pChunk ++ future = k.encode ++ cs.flatMap Chunk.encode := by
    rw [hc.bytes, hrest, flatMap_cons]
  have htake := congrArg (take 12) hbytes
  have hdrop := congrArg (drop 12) hbytes
  rw [take_append_of_le_length h12] at htake
  rw [drop_append_of_le_length h12] at hdrop
  exact ⟨htake, hdrop⟩

theorem CursorAt.take_payload {m : ℕ} (hm : 12 + m ≤ c.pChunk.length) (hle : m ≤ k.payload.length) :
    (c.pChunk.drop 12).take m = k.payload.take m := by
  have h := congrArg (take m) (hc.header hrest (by omega)).2
  rwa [take_append_of_le_length (by rw [length_drop]; omega), take_append_of_le_length hle] at h

include hfits

/-- A round of the loop, in terms of what the `switch` does. -/
theorem chunkStep_eq (h12 : 12 ≤ c.pChunk.length) :
    chunkStep env c = (handleChunk env c ⟨k.chunkType, k.blocks, k.totalSz⟩
          (k.blocks * img.blkSz)).map (c.after k img.blkSz) := by
  have hwf := hc.wellFormed hrest
  have hhead := (hc.header hrest h12).1
  have hread : ChunkHeader.read c.pChunk = ⟨k.chunkType, k.blocks, k.totalSz⟩ := by
    rw [← take_append_drop 12 c.pChunk, hhead]
    exact ChunkHeader.read_header hwf _
  rw [chunkStep, if_neg (by omega), hread]
  simp only [hc.rep.blkSz, Nat.mod_eq_of_lt hwf.size_lt, hhead, hc.unParsed,
    Nat.mod_eq_of_lt (hc.rep.flash_add_le hfits hrest)]
  cases handleChunk env c ⟨k.chunkType, k.blocks, k.totalSz⟩ (k.blocks * img.blkSz) <;> rfl

/-- The progress after a chunk has been parsed and written completely. -/
def Progress.next (env : BurnEnv) (blkSz : ℕ) (p : Progress) (k : Chunk) (cs : List Chunk) :
    Progress :=
  ⟨p.parsed ++ [k], cs, [], p.out ++ k.written env blkSz, p.offset + k.totalSz⟩

/-- The round parses the next chunk. -/
def ParsesNext (img : SparseImage) (env : BurnEnv) (ws : List Write) (future : List UInt8)
    (p : Progress) (c : Cursor) (k : Chunk) (cs : List Chunk) : Prop :=
  ∃ c', chunkStep env c = .ok c' ∧ c'.pChunk = c.pChunk.drop k.totalSz ∧
    CursorAt img env ws future (p.next env img.blkSz k cs) c'

/-- What all completely parsed chunks have in common: the `switch` has issued the writes of the
chunk and reports its size, and has not touched the state outside of the fill buffer. -/
theorem chunkStep_whole (hk : k.totalSz ≤ c.pChunk.length) {r : Handled}
    (hr : handleChunk env c ⟨k.chunkType, k.blocks, k.totalSz⟩ (k.blocks * img.blkSz) = .ok r)
    {area : ℕ → UInt8} {valid : ℕ} (hst : r.st = { c.st with area := area, filledBufValidLen := valid })
    (hfill : FillOk r.st) (harea : ∀ a < fillValBuf, area a = c.st.area a)
    (hsize : 12 + r.thisWriteLen = k.totalSz)
    (hwrites : WritesExactly ((ws ++ c.writes) ++ r.writes) (p.out ++ k.written env img.blkSz)) :
    ParsesNext img env ws future p c k cs := by
  have h12 := k.le_totalSz
  have hlt := hc.lt
  have hbytes := hc.bytes
  rw [hrest, flatMap_cons] at hbytes
  have hdrop := congrArg (drop k.totalSz) hbytes
  rw [drop_append_of_le_length hk, drop_left' k.length_encode] at hdrop
  have hnotWr : r.st.notWrBackSz4LongChunk = 0 := by
    rw [hst]
    exact hc.notWr
  have hrep := hc.rep.parse_chunk hfits hrest hc.pending (append_nil _).symm h12
    (add_zero _) (fun h => absurd rfl h) hwrites hnotWr (fun h => absurd rfl h) (by rw [hst])
    (by rw [hst]) (by rw [hst]) (by rw [hst]; exact harea) hfill
  rw [append_assoc] at hrep
  refine ⟨c.after k img.blkSz r, ?_, rfl, hrep, rfl, hdrop, ?_, ?_⟩
  · rw [chunkStep_eq hc hfits hrest (by omega), hr]
    rfl
  · rw [Cursor.after, hsize, sub32_of_le hlt hk, length_drop]
  · rw [Cursor.after, length_drop]
    omega

theorem chunkStep_dontCare (hb : k.body = .dontCare) (hk : k.totalSz ≤ c.pChunk.length) :
    ParsesNext img env ws future p c k cs := by
  have hr : handleChunk env c ⟨k.chunkType, k.blocks, k.totalSz⟩ (k.blocks * img.blkSz) =
    .ok ⟨c.st, 0, []⟩ := by
    simp [handleChunk, dontCareChunk, Chunk.chunkType, hb, Chunk.totalSz_dontCare hb,
      chunkTypeDontCare, chunkTypeRaw]
  refine chunkStep_whole hc hfits hrest hk hr rfl hc.rep.fill (fun _ _ => rfl)
    (Chunk.totalSz_dontCare hb).symm ?_
  rw [append_nil, Chunk.written]
  simpa only [Chunk.expand, hb] using hc.rep.writes.append_none _

theorem chunkStep_raw {data : List UInt8} (hb : k.body = .raw data)
    (hk : k.totalSz ≤ c.pChunk.length) : ParsesNext img env ws future p c k cs := by
  have hwf := hc.wellFormed hrest
  have htotal := Chunk.totalSz_raw hb
  have hpayload : k.payload = data := by rw [Chunk.payload, hb]
  have hdata : (c.pChunk.drop 12).take data.length = data := by
    rw [hc.take_payload hrest (by omega) (by rw [hpayload]), hpayload, take_length]
  have hr : handleChunk env c ⟨k.chunkType, k.blocks, k.totalSz⟩ (k.blocks * img.blkSz)
      = .ok ⟨c.st, data.length, dataWrites c.flashAddrStart data⟩ := by
    rw [handleChunk, if_pos (by simp [Chunk.chunkType, hb]), htotal, ← hwf.raw data hb,
      rawChunk_whole hc.unParsed (by omega), hdata]
  refine chunkStep_whole hc hfits hrest hk hr rfl hc.rep.fill (fun _ _ => rfl) htotal.symm ?_
  rw [Chunk.written]
  simpa only [Chunk.expand, hb] using hc.rep.writes.append_dataWrites hc.flash data

theorem chunkStep_fill {value : ℕ} (hb : k.body = .fill value) (hk : k.totalSz ≤ c.pChunk.length) :
    ParsesNext img env ws future p c k cs := by
  have hvalue := (hc.wellFormed hrest).fill value hb
  have htotal := Chunk.totalSz_fill hb
  have hpayload : k.payload = leBytes 4 value := by rw [Chunk.payload, hb]
  have hval : ofLe ((c.pChunk.drop 12).take 4) = value := by
    rw [hc.take_payload hrest (by omega) (by rw [hpayload, length_leBytes]), hpayload,
      take_of_length_le (by rw [length_leBytes]), ofLe_leBytes (by simpa using hvalue)]
  have hdvd := k.dvd_size img.blkSz_dvd
  set len := k.blocks * img.blkSz
  have hhandle : handleChunk env c ⟨k.chunkType, k.blocks, k.totalSz⟩ len = fillChunk env c 16 len := by
    simp [handleChunk, Chunk.chunkType, hb, htotal, chunkTypeFill, chunkTypeDontCare, chunkTypeRaw]
  have hfillChunk : fillChunk env c 16 len = if needFill env value then
          .ok ⟨prepareFillBuf c.st value (min len fillBufSz), 4,
            fillWrites (prepareFillBuf c.st value (min len fillBufSz)).area (min len fillBufSz)
              (len + 1) len c.flashAddrStart⟩
        else .ok ⟨c.st, 4, []⟩ := by
    rw [fillChunk, if_neg (by omega), hval, if_neg (by simp)]
  by_cases hneed : needFill env value = true
  · have hdvdMin : 512 ∣ min len fillBufSz := by
      rcases le_total len fillBufSz with hle | hle
      · rwa [min_eq_left hle]
      · rw [min_eq_right hle]
        decide
    obtain ⟨area, valid, hprep, hok, hbuf, hbelow⟩ := prepareFillBuf_spec hc.rep.fill hvalue
    rw [if_pos hneed, hprep] at hfillChunk
    refine chunkStep_whole hc hfits hrest hk (hhandle.trans hfillChunk) rfl hok hbelow htotal.symm ?_
    rw [Chunk.written]
    simp only [hneed, Chunk.expand, hb]
    refine fillWrites_exact hbuf hdvdMin _ _ _ _ _ (Nat.lt_succ_self _) hdvd ?_
      (hc.rep.flash_add_le hfits hrest) hc.flash hc.rep.writes
    intro hne
    rw [fillBufSz]
    omega
  · rw [if_neg hneed] at hfillChunk
    refine chunkStep_whole hc hfits hrest hk (hhandle.trans hfillChunk) rfl hc.rep.fill
      (fun _ _ => rfl) htotal.symm ?_
    rw [append_nil, Chunk.written, hb]
    simp only [hneed]
    exact hc.rep.writes.append_none _

/-- A `CHUNK_TYPE_RAW` chunk that goes on behind the buffer leaves some of its data pending, and
less than a slot of it in the buffer. -/
theorem chunkStep_raw_long {data : List UInt8} (hb : k.body = .raw data)
    (h12 : 12 ≤ c.pChunk.length) (hk : c.pChunk.length < k.totalSz) :
    ∃ c' p', chunkStep env c = .ok c' ∧ Advanced img env ws future c.pChunk p.offset p' c' ∧
      p'.rest = cs ∧ c'.unParsedBufLen < p'.pending.length ∧ c'.unParsedBufLen < 65536 := by
  have hwf := hc.wellFormed hrest
  have hraw := hwf.raw data hb
  have htotal := Chunk.totalSz_raw hb
  have hlt := hc.lt
  have hpayload : k.payload = data := by rw [Chunk.payload, hb]
  obtain ⟨w, hw⟩ : ∃ w, w = alignSlot (c.pChunk.length - 12) := ⟨_, rfl⟩
  have hwle : 12 + w ≤ c.pChunk.length := by
    have := alignSlot_le (c.pChunk.length - 12)
    omega
  have hwlt : w < data.length := by omega
  have htake := hc.take_payload hrest hwle (by rw [hpayload]; omega)
  rw [hpayload] at htake
  have hdrop : c.pChunk.drop (12 + w) ++ future = data.drop w ++ cs.flatMap Chunk.encode := by
    have h := congrArg (drop w) (hc.header hrest h12).2
    rwa [hpayload, drop_append_of_le_length (by rw [length_drop]; omega), drop_drop,
      drop_append_of_le_length (le_of_lt hwlt)] at h
  have hsector : (c.flashAddrStart + w / 512) % 2 ^ 32 * 512 = p.out.length + w := by
    have hfit := hc.rep.flash_add_le hfits hrest
    rw [Nat.mod_eq_of_lt (by omega), Nat.add_mul, hc.flash, Nat.div_mul_cancel (hw ▸ dvd_alignSlot _)]
  obtain ⟨r, hr₀⟩ : ∃ r : Handled, r = ⟨c.st.holdBack (sub32 data.length w)
    ((c.flashAddrStart + w / 512) % 2 ^ 32), w, dataWrites c.flashAddrStart (data.take w)⟩ := ⟨_, rfl⟩
  have hr : handleChunk env c ⟨k.chunkType, k.blocks, k.totalSz⟩ (k.blocks * img.blkSz) = .ok r := by
    rw [handleChunk, if_pos (by simp [Chunk.chunkType, hb]), htotal, ← hraw, hr₀, ← htake]
    exact rawChunk_long hc.unParsed h12 (by omega) hw
  have hnotWr : r.st.notWrBackSz4LongChunk = (data.drop w).length := by
    rw [hr₀, length_drop]
    exact sub32_of_le (by have := hwf.size_lt; omega) (le_of_lt hwlt)
  have hwritten : k.written env img.blkSz = (data.take w).map some ++ (data.drop w).map some := by
    rw [← map_append, take_append_drop, Chunk.written]
    simp only [Chunk.expand, hb]
  have hsize : 12 + w + (data.drop w).length = k.totalSz := by
    rw [length_drop]
    omega
  have hwrites : WritesExactly ((ws ++ c.writes) ++ r.writes) (p.out ++ (data.take w).map some) := by
    rw [hr₀]
    exact hc.rep.writes.append_dataWrites hc.flash (data.take w)
  have hnext : r.st.nextFlashAddr4LastLongChunk * 512 = (p.out ++ (data.take w).map some).length := by
    rw [length_append, length_map, length_take, min_eq_left (le_of_lt hwlt), hr₀]
    exact hsector
  have hrep := hc.rep.parse_chunk hfits hrest hc.pending hwritten (Nat.le_add_right 12 w) hsize
    (fun _ => by rw [Chunk.isFill, hb]) hwrites hnotWr (fun _ => hnext) (by rw [hr₀]; rfl)
    (by rw [hr₀]; rfl) (by rw [hr₀]; rfl) (by rw [hr₀]; exact fun _ _ => rfl)
    (by rw [hr₀]; exact hc.rep.fill)
  rw [append_assoc] at hrep
  have hunParsed : (c.after k img.blkSz r).unParsedBufLen = c.pChunk.length - (12 + w) := by
    rw [Cursor.after, hr₀]
    exact sub32_of_le hlt hwle
  refine ⟨c.after k img.blkSz r, _, ?_, ⟨hrep, ?_, ?_, ?_⟩, rfl, ?_, ?_⟩
  · rw [chunkStep_eq hc hfits hrest h12, hr]
    rfl
  · omega
  · show p.offset + (12 + w) + _ = _
    omega
  · rw [hunParsed, Nat.sub_sub_self hwle]
    exact hdrop
  · rw [length_drop]
    omega
  · have := sub_alignSlot_lt (c.pChunk.length - 12)
    omega

/-- The value of a `CHUNK_TYPE_FILL` chunk is read even when it is not in the buffer. -/
theorem chunkStep_fill_cut (hk : k.isFill = true) (h12 : 12 ≤ c.pChunk.length)
    (h16 : c.pChunk.length < 16) : chunkStep env c = .error .overread := by
  obtain ⟨value, hb⟩ := isFill_iff.mp hk
  have hr : handleChunk env c ⟨k.chunkType, k.blocks, k.totalSz⟩ (k.blocks * img.blkSz) =
    .error .overread := by
    simp [handleChunk, fillChunk, Chunk.chunkType, hb, chunkTypeFill, chunkTypeDontCare, chunkTypeRaw, h16]
  rw [chunkStep_eq hc hfits hrest h12, hr]
  rfl

/-- The rounds of the loop that parse a whole chunk. -/
theorem chunkStep_of_le (hk : k.totalSz ≤ c.pChunk.length) :
    ParsesNext img env ws future p c k cs := by
  cases hb : k.body with
  | raw data => exact chunkStep_raw hc hfits hrest hb hk
  | fill value => exact chunkStep_fill hc hfits hrest hb hk
  | dontCare => exact chunkStep_dontCare hc hfits hrest hb hk

end Round

/-! ## The loop -/

/-- Nothing more can be parsed with `m` bytes at hand: the next header is not complete, or the data
of a long chunk goes on, with less than a slot of it left over. -/
def Idle (p : Progress) (m : ℕ) : Prop :=
  (p.pending = [] ∧ (p.rest = [] ∨ m < 12)) ∨ (m < p.pending.length ∧ m < 65536)

theorem Represents.set_counters {st : SimgState} {flash : ℕ} (h : Represents img env p st ws flash)
    (left head : ℕ) : Represents img env p { st with leftChunkNum := left, pktHeadLen := head } ws
    flash := { h with }

/-- Two parts of a buffer one after the other. -/
theorem Advanced.of_next {b : List UInt8} {offset : ℕ} {p' : Progress} {c' : Cursor} {n : ℕ}
    (hn : n ≤ b.length) (h : Advanced img env ws future (b.drop n) (offset + n) p' c') :
    Advanced img env ws future b offset p' c' := by
  have hle := h.le
  have hoff := h.offset
  have hbytes := h.bytes
  rw [length_drop] at hle hoff hbytes
  refine ⟨h.rep, by omega, by omega, ?_⟩
  rwa [drop_drop, show n + (b.length - n - c'.unParsedBufLen) = b.length - c'.unParsedBufLen by
    omega] at hbytes

/-- A loop that stops has parsed nothing more. -/
theorem CursorAt.advanced (hc : CursorAt img env ws future p c) (left : ℕ) :
    Advanced img env ws future c.pChunk p.offset p
    { c with st := { c.st with leftChunkNum := left } } := by
  have hu := hc.unParsed
  refine ⟨hc.rep.set_counters left c.st.pktHeadLen, le_of_eq hu, by rw [← hu], ?_⟩
  rw [hu, Nat.sub_self, drop_zero, hc.bytes, Progress.remaining, hc.pending, nil_append]

theorem chunkLoop_of_pending (left : ℕ) (h : c.st.notWrBackSz4LongChunk ≠ 0) :
    chunkLoop env left c = .ok { c with st := { c.st with leftChunkNum := left } } := by
  cases left with
  | zero => rfl
  | succ left => rw [chunkLoop, if_pos (.inl h)]

/-- The loop parses what it can, and goes wrong when the buffer ends in front of the end of a fill
value. -/
theorem chunkLoop_spec (hfits : img.Fits) (cs : List Chunk) (p : Progress) (c : Cursor)
    (hrest : p.rest = cs) (hc : CursorAt img env ws future p c) :
    (∃ c' p', chunkLoop env cs.length c = .ok c' ∧
      Advanced img env ws future c.pChunk p.offset p' c' ∧ c'.st.leftChunkNum = p'.rest.length ∧
      Idle p' c'.unParsedBufLen) ∨
    CutsFillValue img.chunks (p.offset + c.pChunk.length) ∧ chunkLoop env cs.length c =
      .error .overread := by
  induction cs generalizing p c with
  | nil =>
    exact .inl ⟨_, p, rfl, hc.advanced 0, by rw [hrest]; rfl, .inl ⟨hc.pending, .inl hrest⟩⟩
  | cons k cs ih =>
    have hnotWr := hc.notWr
    have hu := hc.unParsed
    rw [length_cons, chunkLoop]
    rcases lt_or_ge c.pChunk.length 12 with hlt | h12
    · rw [if_pos (.inr (by omega))]
      exact .inl ⟨_, p, rfl, hc.advanced _, by rw [hrest]; rfl, .inl ⟨hc.pending, .inr (hu ▸ hlt)⟩⟩
    rw [if_neg (by omega)]
    rcases lt_or_ge c.pChunk.length k.totalSz with hlong | hk
    · -- the chunk goes on behind the buffer
      cases hb : k.body with
      | dontCare =>
        have := Chunk.totalSz_dontCare hb
        omega
      | fill value =>
        have htotal := Chunk.totalSz_fill hb
        have hfill := isFill_iff.mpr ⟨value, hb⟩
        rw [chunkStep_fill_cut hc hfits hrest hfill h12 (by omega)]
        refine .inr ⟨?_, rfl⟩
        rw [hc.rep.cut, hc.pending, hrest]
        exact .inl ⟨hfill, h12, by rw [length_nil]; omega⟩
      | raw data =>
        obtain ⟨c', p', hstep, hadv, hrest', hlt, hslot⟩ := chunkStep_raw_long hc hfits hrest hb h12 hlong
        have hpos : c'.st.notWrBackSz4LongChunk ≠ 0 := by
          rw [hadv.rep.notWr]
          omega
        rw [hstep]
        refine .inl ⟨_, p', chunkLoop_of_pending cs.length hpos, ?_, by rw [hrest'], .inr ⟨hlt, hslot⟩⟩
        exact ⟨hadv.rep.set_counters cs.length c'.st.pktHeadLen, hadv.le, hadv.offset, hadv.bytes⟩
    · obtain ⟨c', hstep, hp, hc'⟩ := chunkStep_of_le hc hfits hrest hk
      rw [hstep]
      rcases ih _ c' rfl hc' with ⟨c'', p'', hloop, hadv, hleft, hidle⟩ | ⟨hcut, hloop⟩
      · refine .inl ⟨c'', p'', hloop, Advanced.of_next hk ?_, hleft, hidle⟩
        rwa [hp] at hadv
      · have hend : p.offset + k.totalSz + (c.pChunk.length - k.totalSz) = p.offset +
            c.pChunk.length := by omega
        rw [hp, length_drop, Progress.next, hend] at hcut
        exact .inr ⟨hcut, hloop⟩

end UBoot.Burning
