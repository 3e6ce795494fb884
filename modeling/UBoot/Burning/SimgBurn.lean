import UBoot.Burning.SimgChunk

/-!
# Streaming a sparse image to the media

The result about the whole burn: however an image is cut into pieces, the writes put exactly the
expanded image on the media, provided that no piece ends in one of a few places. `Between` is the
invariant between two calls; a call keeps it or fails, and which of the two is decided by the place
where its buffer ends.
-/

namespace UBoot.Burning

open UBoot.Common List

variable {img : SparseImage} {env : BurnEnv} {ws : List Write} {future : List UInt8} {p : Progress}
  {c : Cursor} {d : Download}

/-- The burn between two calls, when `n` bytes of the chunks have been received and `future` has
not. -/
structure Between (img : SparseImage) (env : BurnEnv) (n : ℕ) (future : List UInt8) (p : Progress)
    (d : Download) : Prop where
  rep : Represents img env p d.st d.writes (d.nextMediaOffset / 512)
  media : 512 ∣ d.nextMediaOffset
  left : d.st.leftChunkNum = p.rest.length
  head : d.st.pktHeadLen = 0
  bytes : d.tail ++ future = p.remaining
  idle : Idle p d.tail.length
  received : p.offset + d.tail.length = n

variable {st s : SimgState} {flash a w n : ℕ} {data pre piece : List UInt8} {r : CallResult}

/-! ## The flash address -/

theorem Represents.flash_lt (h : Represents img env p st ws flash) (hfits : img.Fits) :
    flash < 2 ^ 32 := by
  have hlen := congrArg length h.content
  rw [img.length_written env] at hlen
  simp only [length_append, length_map] at hlen
  have hsectors := h.sectors
  have hlt := hfits.sectors
  omega

/-- When nothing more can be parsed, the flash address has passed all chunks that have begun. -/
theorem Represents.started_of_idle {m : ℕ} (h : Represents img env p st ws flash)
    (hidle : Idle p m) : startedSectors img.blkSz img.chunks (p.offset + m) = flash := by
  rw [h.started]
  rcases hidle with ⟨hnone, hrest | hlt⟩ | ⟨hlt, -⟩
  · rw [hrest]
    rfl
  · rw [hnone, length_nil, Nat.sub_zero, startedSectors_of_lt _ _ hlt, add_zero]
  · rw [Nat.sub_eq_zero_of_le (le_of_lt hlt), startedSectors_of_lt _ _ (by decide), add_zero]

theorem Represents.not_cut_of_idle {m : ℕ} (h : Represents img env p st ws flash)
    (hidle : Idle p m) : ¬ CutsFillValue img.chunks (p.offset + m) := by
  rw [h.cut]
  rcases hidle with ⟨hnone, hrest | hlt⟩ | ⟨hlt, -⟩
  · rw [hrest]
    exact id
  · rw [hnone]
    exact not_cutsFillValue_of_lt _ hlt
  · exact not_cutsFillValue_of_lt _ (by omega)

/-! ## The end of a call -/

/-- What a buffer that ends after `n` bytes of the chunks must meet: it does not end in front of the
end of a fill value, and the chunks that begin in it stay below `2 ^ 31` sectors. -/
def GoodEnd (img : SparseImage) (flash n : ℕ) : Prop :=
  ¬ CutsFillValue img.chunks n ∧ startedSectors img.blkSz img.chunks n < flash + 2 ^ 31

/-- A call whose buffer ends after `n` bytes of the chunks: with a good end the burn is between two
calls again, else the call fails. -/
def EndsAs (img : SparseImage) (env : BurnEnv) (flash n : ℕ) (future : List UInt8)
    (r : Option Download) : Prop :=
  (GoodEnd img flash n → ∃ d' p', r = some d' ∧ Between img env n future p' d') ∧
    (¬ GoodEnd img flash n → r = none)

theorem accept_of_lt (hret : r.ret = toInt32 a) (ha : a < 2 ^ 31)
    (hlen : r.unParsedDataLen ≤ data.length) : d.accept data (.ok r) = some
      { st := r.st
        nextMediaOffset := d.nextMediaOffset + a * 512
        tail := data.drop (data.length - r.unParsedDataLen)
        writes := d.writes ++ r.writes } := by
  have hcast : r.ret = (a : ℤ) := by rw [hret, toInt32, if_pos ha]
  rw [Download.accept, if_neg (by omega), hcast, Int.toNat_natCast]

theorem accept_of_ge (hret : r.ret = toInt32 a)
    (ha : 2 ^ 31 ≤ a) (hlt : a < 2 ^ 32) : d.accept data (.ok r) = none := by
  have hneg : r.ret < 0 := by
    rw [hret, toInt32]
    omega
  rw [Download.accept, if_pos (.inl hneg)]

/-- The loop is done with the last part of a buffer: the burn is between two calls again. -/
theorem Advanced.between {c' : Cursor} {p' : Progress} {offset : ℕ}
    {b : List UInt8} (h : Advanced img env d.writes future b offset p' c') (hdata : data = pre ++ b)
    (hleft : c'.st.leftChunkNum = p'.rest.length) (hidle : Idle p' c'.unParsedBufLen)
    (hmedia : 512 ∣ d.nextMediaOffset) (ha : d.nextMediaOffset / 512 + a = c'.flashAddrStart) :
    Between img env (offset + b.length) future p'
      { st := { c'.st with pktHeadLen := 0 }
        nextMediaOffset := d.nextMediaOffset + a * 512
        tail := data.drop (data.length - c'.unParsedBufLen)
        writes := d.writes ++ c'.writes } := by
  have hle := h.le
  have hlen : data.length = pre.length + b.length := by rw [hdata, length_append]
  have htail : data.drop (data.length - c'.unParsedBufLen) = b.drop (b.length - c'.unParsedBufLen) := by
    rw [hlen, Nat.add_sub_assoc hle, hdata, drop_length_add_append]
  have htailLen : (b.drop (b.length - c'.unParsedBufLen)).length = c'.unParsedBufLen := by
    rw [length_drop]
    omega
  have hnext : (d.nextMediaOffset + a * 512) / 512 = c'.flashAddrStart := by
    rw [Nat.add_mul_div_right _ _ (by decide), ha]
  rw [htail]
  refine ⟨?_, Nat.dvd_add hmedia (Nat.dvd_mul_left 512 a), hleft, rfl, h.bytes, ?_, ?_⟩
  · simp only [hnext]
    exact h.rep.set_counters c'.st.leftChunkNum 0
  · simp only [htailLen]
    exact hidle
  · simp only [htailLen]
    exact h.offset

/-- A call from the loop on: it fails, or the burn is between two calls again. -/
theorem accept_simgParse (hfits : img.Fits) (hdata : data = pre ++ c.pChunk)
    (hc : CursorAt img env d.writes future p c) (hleft : c.st.leftChunkNum = p.rest.length)
    (hflash : c.flashAddrStart = d.nextMediaOffset / 512) (hmedia : 512 ∣ d.nextMediaOffset) :
    EndsAs img env c.flashAddrStart (p.offset + c.pChunk.length) future
      (d.accept data (simgParse env c.flashAddrStart c)) := by
  rcases chunkLoop_spec hfits p.rest p c rfl hc with ⟨c', p', hloop, hadv, hleft', hidle⟩ | ⟨hcut, hloop⟩
  · have hlt := hadv.rep.flash_lt hfits
    -- the address reached is that of all chunks begun so far
    have hreached : startedSectors img.blkSz img.chunks (p.offset + c.pChunk.length) =
      c'.flashAddrStart := by
      rw [← hadv.offset]
      exact hadv.rep.started_of_idle hidle
    have hle : c.flashAddrStart ≤ c'.flashAddrStart := by
      rw [← hreached, hc.rep.started]
      exact Nat.le_add_right _ _
    have hret := congrArg toInt32 (sub32_of_le hlt hle)
    have hlen : c'.unParsedBufLen ≤ data.length := by
      have := hadv.le
      rw [hdata, length_append]
      omega
    rw [simgParse, hleft, hloop, EndsAs]
    constructor
    · rintro ⟨-, hstart⟩
      refine ⟨_, p', accept_of_lt hret (by omega) hlen, ?_⟩
      exact hadv.between hdata hleft' hidle hmedia (by omega)
    · intro hbad
      refine accept_of_ge hret ?_ (by omega)
      by_contra hlt'
      exact hbad ⟨hadv.offset ▸ hadv.rep.not_cut_of_idle hidle, by omega⟩
  · refine ⟨fun h => absurd hcut h.1, fun _ => ?_⟩
    rw [simgParse, hleft, hloop]
    rfl

/-! ## The rest of a long chunk -/

/-- The progress after the first `w` pending bytes have been written. -/
def Progress.writePending (p : Progress) (w : ℕ) : Progress :=
  ⟨p.parsed, p.rest, p.pending.drop w, p.out ++ (p.pending.take w).map some, p.offset + w⟩

theorem Progress.writePending_offset (p : Progress) (w : ℕ) :
    (p.writePending w).offset = p.offset + w := rfl

/-- Writing the first `w` pending bytes. -/
theorem Represents.write_pending
    (h : Represents img env p st ws flash) (next : ℕ) (hpos : p.pending ≠ []) (hw : w ≤ p.pending.length)
    (hnext : w < p.pending.length → next = st.nextFlashAddr4LastLongChunk + w / 512 ∧ 512 ∣ w) :
    Represents img env (p.writePending w) (st.holdBack (p.pending.length - w) next)
      (ws ++ [⟨st.nextFlashAddr4LastLongChunk, p.pending.take w⟩]) flash := by
  have hlen : (p.out ++ (p.pending.take w).map some).length = p.out.length + w := by
    rw [length_append, length_map, length_take, min_eq_left hw]
  unfold Progress.writePending
  refine
    { chunks := h.chunks, content := ?_, writes := h.writes.append_write (h.nextFlash hpos),
      sectors := ?_, pending_lt := ?_, notWr := length_drop.symm, nextFlash := ?_, blkSz := h.blkSz,
      chunkOffset := h.chunkOffset, backed := h.backed, area := h.area, fill := h.fill, cut := ?_,
      started := ?_ }
  · rw [h.content, append_assoc, ← append_assoc (map some _), ← map_append, take_append_drop]
  · rw [h.sectors, hlen, length_drop]
    omega
  · have := h.pending_lt
    rw [length_drop]
    omega
  · intro hne
    have hlt : w < p.pending.length := by
      by_contra hge
      exact hne (drop_eq_nil_of_le (not_lt.mp hge))
    obtain ⟨hn, hdvd⟩ := hnext hlt
    rw [hlen, SimgState.holdBack, hn, Nat.add_mul, h.nextFlash hpos, Nat.div_mul_cancel hdvd]
  · intro e
    rw [Nat.add_assoc, h.cut, length_drop, show w + e - p.pending.length = e -
      (p.pending.length - w) by omega]
  · intro e
    rw [Nat.add_assoc, h.started, length_drop, show w + e - p.pending.length = e -
      (p.pending.length - w) by omega]

/-- The write of pending data in front of the loop: how much is written, and what is then left of
the data and of the buffer. -/
theorem pending_split {pending pkt rest : List UInt8} (h : pkt ++ future = pending ++ rest)
    (hw : w ≤ pkt.length) (hw' : w ≤ pending.length) :
    pkt.take w = pending.take w ∧ pkt.drop w ++ future = pending.drop w ++ rest := by
  have htake := congrArg (take w) h
  have hdrop := congrArg (drop w) h
  rw [take_append_of_le_length hw, take_append_of_le_length hw'] at htake
  rw [drop_append_of_le_length hw, drop_append_of_le_length hw'] at hdrop
  exact ⟨htake, hdrop⟩

/-! ## One call -/

section Pending

variable {s : SimgState} {pkt : List UInt8} {w : ℕ}

/-- A call that brings no more than the pending data writes whole slots of it, or all that is
left. -/
theorem simgToMedia_of_le (env : BurnEnv) (flash : ℕ) (hpos : s.notWrBackSz4LongChunk ≠ 0)
    (hhead : s.pktHeadLen = 0) (hlt : s.notWrBackSz4LongChunk < 2 ^ 32)
    (hle : pkt.length ≤ s.notWrBackSz4LongChunk)
    (hw : w = if pkt.length < s.notWrBackSz4LongChunk then alignSlot pkt.length else pkt.length) :
    simgToMedia env s pkt flash = .ok
      { st := s.holdBack (s.notWrBackSz4LongChunk - w)
          ((s.nextFlashAddr4LastLongChunk + w / 512) % 2 ^ 32)
        ret := toInt32 0
        unParsedDataLen := pkt.length - w
        writes := [⟨s.nextFlashAddr4LastLongChunk, pkt.take w⟩] } := by
  have hwle : w ≤ pkt.length := by
    have := alignSlot_le pkt.length
    split at hw <;> omega
  rw [simgToMedia, if_pos ⟨hpos, hhead⟩]
  simp only [if_pos hle, ← hw]
  rw [hhead, sub32_of_le (show pkt.length < 2 ^ 32 by omega) (Nat.zero_le _), Nat.sub_zero,
    sub32_of_le (by omega) hwle, sub32_of_le hlt (by omega)]
  rfl

/-- A call that brings more writes all of the pending data and goes on with the loop. -/
theorem simgToMedia_of_gt (env : BurnEnv) (flash : ℕ) (hpos : s.notWrBackSz4LongChunk ≠ 0)
    (hhead : s.pktHeadLen = 0) (hlt : pkt.length < 2 ^ 32) (hgt : s.notWrBackSz4LongChunk < pkt.length) :
    simgToMedia env s pkt flash = simgParse env flash
      ⟨s.holdBack 0 s.nextFlashAddr4LastLongChunk, pkt.drop s.notWrBackSz4LongChunk,
        pkt.length - s.notWrBackSz4LongChunk, flash,
        [⟨s.nextFlashAddr4LastLongChunk, pkt.take s.notWrBackSz4LongChunk⟩]⟩ := by
  rw [simgToMedia, if_pos ⟨hpos, hhead⟩]
  simp only [if_neg hgt.not_ge, Nat.lt_irrefl, if_false]
  rw [hhead, sub32_of_le hlt (Nat.zero_le _), Nat.sub_zero, sub32_of_le hlt (Nat.le_of_lt hgt),
    sub32_of_le (by omega) le_rfl, Nat.sub_self]

end Pending

theorem Between.tail_lt (h : Between img env n future p d) : d.tail.length < 65536 := by
  rcases h.idle with ⟨hnone, hrest | hlt⟩ | ⟨-, hlt⟩
  · have hlen := congrArg length h.bytes
    rw [Progress.remaining, hnone, hrest] at hlen
    simp only [length_append, flatMap_nil, length_nil] at hlen
    omega
  · omega
  · exact hlt

section Call

variable {n : ℕ} {piece : List UInt8}

section

variable (hfits : img.Fits) (h : Between img env n (piece ++ future) p d) {pkt : List UInt8}
  (hpkt : d.tail ++ piece = pkt) (hbytes : pkt ++ future = p.remaining)
  (hn : p.offset + pkt.length = n + piece.length)

include hfits h hpkt hbytes hn

/-- A call with no data pending starts with the loop. -/
theorem download_of_no_pending (hlt : pkt.length < 2 ^ 32) (hnone : p.pending = []) :
    EndsAs img env (d.nextMediaOffset / 512) (n + piece.length) future
    (downloadSparseImage env d piece) := by
  have hnotWr : d.st.notWrBackSz4LongChunk = 0 := by rw [h.rep.notWr, hnone, length_nil]
  have hcall : downloadSparseImage env d piece = d.accept pkt (simgParse env (d.nextMediaOffset / 512)
        ⟨d.st, pkt, pkt.length, d.nextMediaOffset / 512, []⟩) := by
    rw [downloadSparseImage, hpkt, simgToMedia, if_neg (by simp [hnotWr]), h.head, drop_zero,
      sub32_of_le hlt (Nat.zero_le _), Nat.sub_zero, Nat.mod_eq_of_lt (h.rep.flash_lt hfits)]
  have hc : CursorAt img env d.writes future p ⟨d.st, pkt, pkt.length, d.nextMediaOffset / 512, []⟩ := by
    refine ⟨?_, hnone, ?_, rfl, hlt⟩
    · rw [append_nil]
      exact h.rep
    · rwa [Progress.remaining, hnone, nil_append] at hbytes
  have hmain := accept_simgParse hfits (nil_append _).symm hc h.left rfl h.media
  rw [hcall]
  rwa [hn] at hmain

/-- A call that does not get past the pending data succeeds. -/
theorem download_of_le_pending (hpos : p.pending ≠ []) (hle : pkt.length ≤ p.pending.length) :
    ∃ d' p', downloadSparseImage env d piece = some d' ∧
    Between img env (n + piece.length) future p' d' := by
  have hnotWr := h.rep.notWr
  have hposLen : p.pending.length ≠ 0 := fun h0 => hpos (length_eq_zero_iff.mp h0)
  obtain ⟨w, hw⟩ : ∃ w, w = if pkt.length < p.pending.length then alignSlot pkt.length
    else pkt.length := ⟨_, rfl⟩
  have hwle : w ≤ pkt.length := by
    have := alignSlot_le pkt.length
    split at hw <;> omega
  obtain ⟨htake, hdrop⟩ := pending_split hbytes hwle (by omega)
  have hnext : w < p.pending.length → (d.st.nextFlashAddr4LastLongChunk + w / 512) % 2 ^ 32
      = d.st.nextFlashAddr4LastLongChunk + w / 512 ∧ 512 ∣ w := by
    intro hlt
    have hdvd : 512 ∣ w := by
      rw [hw, if_pos (by split at hw <;> omega)]
      exact dvd_alignSlot _
    have hflash := h.rep.flash_lt hfits
    have hsectors := h.rep.sectors
    have hnf := h.rep.nextFlash hpos
    omega
  have hrep := h.rep.write_pending _ hpos (show w ≤ p.pending.length by omega) hnext
  have hcall := simgToMedia_of_le env (d.nextMediaOffset / 512 % 2 ^ 32) (hnotWr ▸ hposLen) h.head
    (hnotWr ▸ h.rep.pending_lt) (hnotWr ▸ hle) (hnotWr ▸ hw)
  rw [downloadSparseImage, hpkt, hcall, hnotWr]
  refine ⟨_, p.writePending w, accept_of_lt (a := 0) rfl (by decide) (Nat.sub_le _ _), ?_⟩
  simp only [Nat.sub_sub_self hwle, htake]
  refine ⟨hrep, h.media, h.left, h.head, hdrop, ?_, ?_⟩
  · rw [Idle, Progress.writePending, length_drop, length_drop]
    split at hw
    · have := sub_alignSlot_lt pkt.length
      right
      omega
    · left
      exact ⟨drop_eq_nil_of_le (by omega), .inr (by omega)⟩
  · rw [length_drop, Progress.writePending_offset]
    omega

/-- A call that gets past the pending data writes it and goes on with the loop. -/
theorem download_of_gt_pending (hlt : pkt.length < 2 ^ 32) (hpos : p.pending ≠ [])
    (hgt : p.pending.length < pkt.length) :
    EndsAs img env (d.nextMediaOffset / 512) (n + piece.length) future
      (downloadSparseImage env d piece) := by
  have hnotWr := h.rep.notWr
  set m := p.pending.length
  have hposLen : m ≠ 0 := fun h0 => hpos (length_eq_zero_iff.mp h0)
  obtain ⟨htake, hdrop⟩ := pending_split hbytes (le_of_lt hgt) le_rfl
  rw [drop_length] at hdrop
  have hrep := h.rep.write_pending d.st.nextFlashAddr4LastLongChunk hpos le_rfl
    (fun h' => absurd h' (lt_irrefl _))
  rw [Nat.sub_self, ← htake] at hrep
  have hcall := simgToMedia_of_gt env (d.nextMediaOffset / 512) (hnotWr ▸ hposLen)
    h.head hlt (hnotWr ▸ hgt)
  rw [hnotWr] at hcall
  rw [downloadSparseImage, hpkt, Nat.mod_eq_of_lt (h.rep.flash_lt hfits), hcall]
  have hc : CursorAt img env d.writes future (p.writePending m)
      ⟨d.st.holdBack 0 d.st.nextFlashAddr4LastLongChunk, pkt.drop m, pkt.length - m,
        d.nextMediaOffset / 512, [⟨d.st.nextFlashAddr4LastLongChunk, pkt.take m⟩]⟩ :=
    ⟨hrep, drop_length, hdrop, length_drop.symm, by rw [length_drop]; omega⟩
  have hmain := accept_simgParse hfits (take_append_drop m pkt).symm hc h.left rfl h.media
  have hn' : (p.writePending m).offset + (pkt.drop m).length = n + piece.length := by
    rw [length_drop, Progress.writePending_offset]
    omega
  rwa [hn'] at hmain

omit hpkt hbytes hn in
/-- A call keeps the burn going if its buffer ends in a good place, and fails otherwise. -/
theorem downloadSparseImage_spec (hpiece : piece.length + 65536 ≤ 2 ^ 32) :
    EndsAs img env (d.nextMediaOffset / 512) (n + piece.length) future
    (downloadSparseImage env d piece) := by
  have htail := h.tail_lt
  obtain ⟨pkt, hpkt⟩ : ∃ pkt, d.tail ++ piece = pkt := ⟨_, rfl⟩
  have hlen : pkt.length = d.tail.length + piece.length := by rw [← hpkt, length_append]
  have hbytes : pkt ++ future = p.remaining := by
    rw [← hpkt, append_assoc]
    exact h.bytes
  have hn : p.offset + pkt.length = n + piece.length := by rw [hlen, ← add_assoc, h.received]
  by_cases hnone : p.pending = []
  · exact download_of_no_pending hfits h hpkt hbytes hn (by omega) hnone
  rcases lt_or_ge p.pending.length pkt.length with hgt | hle
  · exact download_of_gt_pending hfits h hpkt hbytes hn (by omega) hnone hgt
  · refine ⟨fun _ => download_of_le_pending hfits h hpkt hbytes hn hnone hle, fun hbad => absurd ?_ hbad⟩
    -- inside of a raw chunk every place is good
    rw [GoodEnd, ← hn, h.rep.cut, h.rep.started, Nat.sub_eq_zero_of_le hle,
      startedSectors_of_lt _ _ (by decide)]
    exact ⟨not_cutsFillValue_of_lt _ (by decide), by omega⟩

end

end Call

/-! ## Whole images -/

/-- Every piece ends in a good place; `n` bytes of the image have gone before. The first piece must
have the file header. -/
def GoodCuts (img : SparseImage) : ℕ → List (List UInt8) → Prop
  | _, [] => True
  | n, piece :: pieces =>
    (28 ≤ n + piece.length ∧ GoodEnd img (startedSectors img.blkSz img.chunks (n - 28))
      (n + piece.length - 28)) ∧
    GoodCuts img (n + piece.length) pieces

instance instDecidableGoodEnd (img : SparseImage) (flash n : ℕ) : Decidable (GoodEnd img flash n) :=
  inferInstanceAs (Decidable (¬ _ ∧ _))

instance instDecidableGoodCuts (img : SparseImage) :
    (n : ℕ) → (pieces : List (List UInt8)) → Decidable (GoodCuts img n pieces)
  | _, [] => .isTrue trivial
  | n, piece :: pieces =>
    have : Decidable (GoodCuts img (n + piece.length) pieces) := instDecidableGoodCuts img _ _
    inferInstanceAs (Decidable (_ ∧ _))

/-- The pieces after the first one: they go through exactly if they end in good places. -/
theorem downloadPieces_spec (hfits : img.Fits) (pieces : List (List UInt8))
    (hlen : ∀ piece ∈ pieces, piece.length + 65536 ≤ 2 ^ 32) (n : ℕ) (p : Progress) (d : Download)
    (h : Between img env n (pieces.flatten ++ future) p d) :
    (GoodCuts img (n + 28) pieces → ∃ d' p', downloadPieces env d pieces = some d' ∧
      Between img env (n + pieces.flatten.length) future p' d') ∧
    (¬ GoodCuts img (n + 28) pieces → downloadPieces env d pieces = none) := by
  induction pieces generalizing n p d with
  | nil => exact ⟨fun _ => ⟨d, p, rfl, h⟩, fun hbad => absurd trivial hbad⟩
  | cons piece pieces ih =>
    rw [flatten_cons, append_assoc] at h
    have hflash : startedSectors img.blkSz img.chunks n = d.nextMediaOffset / 512 := by
      rw [← h.received]
      exact h.rep.started_of_idle h.idle
    obtain ⟨hgo, hstop⟩ := downloadSparseImage_spec hfits h (hlen piece mem_cons_self)
    have hcons : GoodCuts img (n + 28) (piece :: pieces) ↔ GoodEnd img (d.nextMediaOffset / 512)
          (n + piece.length) ∧ GoodCuts img (n + piece.length + 28) pieces := by
      rw [GoodCuts, Nat.add_sub_cancel, hflash, Nat.add_right_comm]
      simp
    by_cases hgood : GoodEnd img (d.nextMediaOffset / 512) (n + piece.length)
    · obtain ⟨d', p', hcall, h'⟩ := hgo hgood
      have hrest := ih (forall_mem_cons.mp hlen).2 (n + piece.length) p' d' h'
      rw [downloadPieces, hcall, hcons, flatten_cons, length_append, ← Nat.add_assoc]
      simpa [hgood] using hrest
    · refine ⟨fun hcuts => absurd (hcons.mp hcuts).1 hgood, fun _ => ?_⟩
      rw [downloadPieces, hstop hgood]

/-! ### The first piece -/

theorem SparseImage.fields_encode (img : SparseImage) :
    img.encode.take 28 = img.header ∧ (img.encode.drop 8).take 2 = leBytes 2 28 ∧
      (img.encode.drop 12).take 4 = leBytes 4 img.blkSz ∧
      (img.encode.drop 20).take 4 = leBytes 4 img.chunks.length := by
  refine ⟨?_, ?_, ?_, ?_⟩
  · rw [encode, take_left' img.length_header]
  all_goals
    simp [encode, header, drop_append, drop_eq_nil_of_le]

section

variable (env)

/-- The parser right after its initialisation. -/
theorem represents_start (hs : FillOk s) :
    Represents img env ⟨[], img.chunks, [], [], 0⟩ (simgParserInit img.encode s) [] 0 := by
  obtain ⟨htake, -, hblk, -⟩ := img.fields_encode
  have harea : (simgParserInit img.encode s).area = store s.area 0 img.header := by
    rw [simgParserInit, htake]
  refine
    { chunks := rfl, content := rfl, writes := exact_nil, sectors := rfl, pending_lt := Nat.two_pow_pos 32,
      notWr := rfl, nextFlash := fun h => absurd rfl h, blkSz := ?_, chunkOffset := rfl, backed := rfl,
      area := ?_, fill := ?_, cut := fun e => by rw [zero_add]; rfl,
      started := fun e => by rw [zero_add, zero_add]; rfl }
  · rw [simgParserInit, hblk]
    exact ofLe_leBytes img.blkSz_lt
  · rw [harea]
    exact contains_store _ _ _
  · obtain ⟨value, hvalue, hbuf⟩ := hs
    refine ⟨value, hvalue, hbuf.congr fun a ha _ => ?_⟩
    rw [fillValBuf] at ha
    rw [harea, store_of_outside _ _ _ (.inr (by rw [img.length_header]; omega))]

theorem start_left (s : SimgState) :
    (simgParserInit img.encode s).leftChunkNum = img.chunks.length := by
  rw [simgParserInit, img.fields_encode.2.2.2]
  exact ofLe_leBytes img.chunks_lt

theorem start_head (s : SimgState) : (simgParserInit img.encode s).pktHeadLen = 28 := by
  rw [simgParserInit, img.fields_encode.2.1]
  exact ofLe_leBytes (by decide)

/-- The first call: the parser starts behind the file header, wherever the buffer ends. -/
theorem download_first (s : SimgState) (piece : List UInt8) :
    downloadSparseImage env (Download.start img.encode s) piece
      = (Download.start img.encode s).accept piece (simgParse env 0
        ⟨simgParserInit img.encode s, piece.drop 28, sub32 piece.length 28, 0, []⟩) := by
  rw [downloadSparseImage, Download.start, nil_append, simgToMedia, if_neg (by simp [start_head]),
    start_head, Nat.zero_div, Nat.zero_mod]

/-- A first piece without the whole file header: the number of bytes left wraps around. -/
theorem download_first_short (s : SimgState) (hlt : piece.length < 28) :
    downloadSparseImage env (Download.start img.encode s) piece = none := by
  obtain ⟨u, hu⟩ : ∃ u, u = sub32 piece.length 28 := ⟨_, rfl⟩
  have hwrap : 12 ≤ u ∧ piece.length < u := by
    rw [hu, sub32]
    omega
  have hnil : piece.drop 28 = [] := drop_eq_nil_of_le (by omega)
  rw [download_first, hnil, ← hu, simgParse, start_left]
  rcases img.chunks with _ | ⟨k, cs⟩
  · rw [length_nil, chunkLoop, Download.accept, if_pos (.inr hwrap.2)]
  have hloop : ¬ ((simgParserInit img.encode s).notWrBackSz4LongChunk ≠ 0 ∨ u < 12) := by
    rintro (h | h)
    · exact h rfl
    · omega
  rw [length_cons, chunkLoop, if_neg hloop]
  rfl

theorem download_first_spec (hfits : img.Fits) (hs : FillOk s)
    (hbytes : piece ++ future = img.encode) (h28 : 28 ≤ piece.length)
    (hlen : piece.length + 65536 ≤ 2 ^ 32) :
    EndsAs img env 0 (piece.length - 28) future
      (downloadSparseImage env (Download.start img.encode s) piece) := by
  have hchunks : piece.drop 28 ++ future = img.chunks.flatMap Chunk.encode := by
    have h := congrArg (drop 28) hbytes
    rwa [drop_append_of_le_length h28, SparseImage.encode, drop_left' img.length_header] at h
  have hc : CursorAt img env (Download.start img.encode s).writes future ⟨[], img.chunks, [], [], 0⟩
      ⟨simgParserInit img.encode s, piece.drop 28, piece.length - 28, 0, []⟩ :=
    ⟨represents_start env hs, rfl, hchunks, length_drop.symm, by rw [length_drop]; omega⟩
  have hmain := accept_simgParse hfits (take_append_drop 28 piece).symm hc (start_left s)
    (Nat.zero_div 512).symm (Nat.dvd_zero 512)
  rw [length_drop, Nat.zero_add] at hmain
  rw [download_first, sub32_of_le (by omega) h28]
  exact hmain

/-- A burn goes through exactly if all pieces end in good places, whatever the device needs
written. -/
theorem burn_spec (hfits : img.Fits) (hs : FillOk s)
    {pieces : List (List UInt8)} (hpieces : pieces.flatten = img.encode)
    (hlen : ∀ piece ∈ pieces, piece.length + 65536 ≤ 2 ^ 32) :
    (GoodCuts img 0 pieces → ∃ d p n, downloadPieces env (Download.start img.encode s) pieces = some
      d ∧ Between img env n [] p d) ∧
    (¬ GoodCuts img 0 pieces → downloadPieces env (Download.start img.encode s) pieces = none) := by
  rcases pieces with _ | ⟨piece, pieces⟩
  · have h := congrArg length hpieces
    rw [SparseImage.encode, length_append, img.length_header, flatten_nil, length_nil] at h
    omega
  have hcuts : GoodCuts img 0 (piece :: pieces) ↔ (28 ≤ piece.length ∧
      GoodEnd img 0 (piece.length - 28)) ∧ GoodCuts img piece.length pieces := by
    rw [GoodCuts, zero_add, startedSectors_of_lt _ _ (by decide)]
  rw [hcuts, downloadPieces]
  rcases lt_or_ge piece.length 28 with hlt | h28
  · rw [download_first_short env s hlt]
    exact ⟨fun h => absurd h.1.1 (by omega), fun _ => rfl⟩
  obtain ⟨hgo, hstop⟩ := download_first_spec env hfits hs
    (show piece ++ (pieces.flatten ++ []) = img.encode by simpa using hpieces) h28
    (hlen piece mem_cons_self)
  by_cases hgood : GoodEnd img 0 (piece.length - 28)
  · obtain ⟨d, p, hcall, h⟩ := hgo hgood
    obtain ⟨hgo', hstop'⟩ := downloadPieces_spec hfits pieces (forall_mem_cons.mp hlen).2 _ p d h
    rw [Nat.sub_add_cancel h28] at hgo' hstop'
    rw [hcall]
    refine ⟨fun hall => ?_, fun hbad => hstop' fun hrest => hbad ⟨⟨h28, hgood⟩, hrest⟩⟩
    obtain ⟨d', p', hrun, h'⟩ := hgo' hall.2
    exact ⟨d', p', _, hrun, h'⟩
  · rw [hstop hgood]
    exact ⟨fun hall => absurd hall.1.2 hgood, fun _ => rfl⟩

end

/-- At the end of the image nothing is left. -/
theorem Between.finished (h : Between img env n [] p d) : p.pending = [] ∧ p.rest =
    [] ∧ d.tail = [] := by
  have hbytes := h.bytes
  rw [append_nil, Progress.remaining] at hbytes
  have hlen := congrArg length hbytes
  rw [length_append] at hlen
  rcases h.idle with ⟨hnone, hrest⟩ | ⟨hlt, -⟩
  · have hnil : p.rest = [] := by
      rcases hrest with hrest | hlt
      · exact hrest
      cases hcs : p.rest with
      | nil => rfl
      | cons k cs =>
        have hk := k.le_totalSz
        rw [hcs, flatMap_cons, length_append, k.length_encode] at hlen
        omega
    refine ⟨hnone, hnil, ?_⟩
    rw [hbytes, hnone, hnil]
    rfl
  · omega

/-- After a burn all chunks are parsed, and everything that the device needs has been written. -/
theorem Between.result (h : Between img env n [] p d) :
    Represents img env ⟨img.chunks, [], [], img.written env, p.offset⟩ d.st d.writes
      (d.nextMediaOffset / 512) ∧ d.st.leftChunkNum = 0 ∧ d.tail = [] := by
  obtain ⟨hpending, hrest, htail⟩ := h.finished
  have hchunks := h.rep.chunks
  have hcontent := h.rep.content
  rw [hrest, append_nil] at hchunks
  rw [hpending, hrest] at hcontent
  simp only [map_nil, flatMap_nil, append_nil] at hcontent
  refine ⟨?_, by rw [h.left, hrest]; rfl, htail⟩
  have hrep := h.rep
  obtain ⟨parsed, rest, pending, out, offset⟩ := p
  cases hpending
  cases hrest
  cases hchunks
  cases hcontent
  exact hrep

/-- The image has been burned: the writes are those of the expanded image, every chunk has been
parsed, and no byte of the file is left over. -/
structure Burned (img : SparseImage) (d : Download) : Prop where
  writes : WritesExactly d.writes img.expanded
  left : d.st.leftChunkNum = 0
  tail : d.tail = []

/-- An image is burned exactly if each of its pieces ends in a good place. -/
theorem burned_iff_goodCuts (img : SparseImage) (env : BurnEnv) (s : SimgState)
    (pieces : List (List UInt8)) (hneed : ∀ value, needFill env value = true) (hfits : img.Fits)
    (hs : FillOk s) (hpieces : pieces.flatten = img.encode)
    (hlen : ∀ piece ∈ pieces, piece.length + 65536 ≤ 2 ^ 32) :
    (∃ d, downloadPieces env (Download.start img.encode s) pieces = some d ∧ Burned img d) ↔
      GoodCuts img 0 pieces := by
  obtain ⟨hgo, hstop⟩ := burn_spec env hfits hs hpieces hlen
  constructor
  · rintro ⟨d, hrun, -⟩
    by_contra hbad
    rw [hstop hbad] at hrun
    cases hrun
  · intro hgood
    obtain ⟨d, p, n, hrun, h⟩ := hgo hgood
    obtain ⟨hrep, hleft, htail⟩ := h.result
    refine ⟨d, hrun, ?_, hleft, htail⟩
    rw [← img.written_eq_expanded hneed]
    exact hrep.writes

theorem dvd_sector : 512 ∣ 512 := Nat.dvd_refl 512

theorem sector_lt : 512 < 2 ^ 32 := by decide

/-- A small image with a chunk of each kind. -/
def smallImage : SparseImage where
  minorVersion := 0
  blkSz := 512
  totalBlks := 3
  imageChecksum := 0
  chunks := [⟨0, 1, .fill 7⟩, ⟨0, 1, .raw (List.replicate 512 3)⟩, ⟨0, 1, .dontCare⟩]
  blkSz_dvd := dvd_sector
  blkSz_lt := sector_lt
  chunks_lt := by decide
  wellFormed := by
    intro c hc
    simp only [mem_cons, not_mem_nil, or_false] at hc
    rcases hc with rfl | rfl | rfl <;> constructor <;> simp [Chunk.totalSz, Chunk.payload,
        -List.reduceReplicate]

/-- A parser that has not burned anything yet. -/
def freshState : SimgState := ⟨0, 0, 0, 0, 0, 0, 0, 0, fun _ => 0⟩

theorem fits_smallImage : smallImage.Fits := ⟨by decide, by decide +kernel⟩

theorem fillOk_freshState : FillOk freshState := ⟨0, by decide, trivial⟩

/-- A device on which every fill is written. -/
def plainDevice : BurnEnv := ⟨.other, 0⟩

theorem needFill_plainDevice (value : ℕ) : needFill plainDevice value = true := rfl

/-- Cut in the middle of its raw data, the small image is burned. -/
theorem burned_iff_goodCuts_small :
    GoodCuts smallImage 0 [smallImage.encode.take 100, smallImage.encode.drop 100] ∧
      ∃ d, downloadPieces plainDevice (Download.start smallImage.encode freshState)
        [smallImage.encode.take 100, smallImage.encode.drop 100] = some d ∧ Burned smallImage d := by
  have hgood : GoodCuts smallImage 0 [smallImage.encode.take 100, smallImage.encode.drop 100] := by
    decide +kernel
  exact ⟨hgood, (burned_iff_goodCuts smallImage plainDevice freshState _ needFill_plainDevice
    fits_smallImage fillOk_freshState (by simp) (by decide +kernel)).mpr hgood⟩

/-- Cut behind the first two bytes of its fill value, it is not: the parser takes the value from
outside of the buffer. -/
theorem not_burned_cut_in_fill :
    [smallImage.encode.take 42, smallImage.encode.drop 42].flatten = smallImage.encode ∧
      ¬ ∃ d, downloadPieces plainDevice (Download.start smallImage.encode freshState)
        [smallImage.encode.take 42, smallImage.encode.drop 42] = some d ∧ Burned smallImage d := by
  have hnone : (downloadPieces plainDevice (Download.start smallImage.encode freshState)
      [smallImage.encode.take 42, smallImage.encode.drop 42]).isNone = true := by decide +kernel
  refine ⟨by simp, ?_⟩
  rintro ⟨d, hrun, -⟩
  rw [hrun] at hnone
  cases hnone

end UBoot.Burning
