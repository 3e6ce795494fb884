import UBoot.Fastboot.Aboot

/-!
# What flashing a sparse image leaves on the device

If the file header is not extended, the loop reads the chunks of the image. It writes them where
they belong as long as their sizes are below 4 GiB; a larger hole or filled area is taken modulo `2
^ 32`, so that everything behind it ends up in front of its place.
-/

namespace UBoot.Fastboot

open UBoot.Common UBoot.Burning List

/-! ### The chunks as the loop reads them -/

section Chunks

variable {dev : BlockDev} {blkSz hdrSz : ℕ} {c : FbChunk}

section

variable (dev : BlockDev) (blkSz : ℕ) (c : FbChunk)

/-- The device blocks of a chunk. -/
def realSectors : ℕ := blkSz * c.blocks / dev.blksz

/-- The device blocks of a chunk by a product of 32 bits. -/
def sectors : ℕ := blkSz * c.blocks % 2 ^ 32 / dev.blksz

/-- The writes of a chunk that begins at a block. -/
def chunkWrites (blk : ℕ) (c : FbChunk) : DeviceWrites :=
  match c.body with
  | .raw data => [(blk * dev.blksz, data)]
  | .fill value =>
    (List.range (sectors dev blkSz c)).map fun i => ((blk + i) * dev.blksz, fillBytes value dev.blksz)
  | .dontCare => []

/-- What a chunk adds to the number of blocks. -/
def countedBlocks : ℕ :=
  match c.body with
  | .fill _ => blkSz * c.blocks % 2 ^ 32 / blkSz
  | _ => c.blocks

end

theorem blksz_pos (dev : BlockDev) : 0 < dev.blksz := by
  rw [dev.blksz_eq]
  exact Nat.two_pow_pos _

theorem four_dvd_blksz (dev : BlockDev) : 4 ∣ dev.blksz := by
  rw [dev.blksz_eq]
  exact Nat.pow_dvd_pow 2 dev.two_le

/-- A block of the device is smaller than a block of the image, so its size divides `2 ^ 32`. -/
theorem blksz_dvd (hdvd : dev.blksz ∣ blkSz) (hpos : 0 < blkSz) (hlt : blkSz < 2 ^ 32) :
    dev.blksz ∣ 2 ^ 32 := by
  have hle := Nat.le_of_dvd hpos hdvd
  rw [dev.blksz_eq] at hle ⊢
  refine Nat.pow_dvd_pow 2 (((Nat.pow_lt_pow_iff_right (by decide : 1 < 2)).mp ?_).le)
  exact hle.trans_lt hlt

theorem sectors_le (c : FbChunk) : sectors dev blkSz c ≤ realSectors dev blkSz c :=
  Nat.div_le_div_right (Nat.mod_le _ _)

theorem sectors_eq (h : blkSz * c.blocks < 2 ^ 32) :
    sectors dev blkSz c = realSectors dev blkSz c := by
  rw [sectors, realSectors, Nat.mod_eq_of_lt h]

/-- A chunk of 4 GiB or more loses blocks. -/
theorem sectors_lt (hdvd : dev.blksz ∣ 2 ^ 32) (h : 2 ^ 32 ≤ blkSz * c.blocks) :
    sectors dev blkSz c < realSectors dev blkSz c := by
  have hmod : blkSz * c.blocks % 2 ^ 32 + dev.blksz ≤ blkSz * c.blocks := by
    have hle := Nat.le_of_dvd (by decide) hdvd
    omega
  calc sectors dev blkSz c < blkSz * c.blocks % 2 ^ 32 / dev.blksz + 1 := Nat.lt_succ_self _
    _ = (blkSz * c.blocks % 2 ^ 32 + dev.blksz) / dev.blksz := (Nat.add_div_right _ (blksz_pos dev)).symm
    _ ≤ realSectors dev blkSz c := Nat.div_le_div_right hmod

theorem realSectors_mul (hdvd : dev.blksz ∣ blkSz) :
    realSectors dev blkSz c * dev.blksz = blkSz * c.blocks :=
  Nat.div_mul_cancel (dvd_trans hdvd (dvd_mul_right _ _))

/-- The data of a raw chunk is in the image, so its size is below 4 GiB. -/
theorem FbChunk.WellFormed.raw_lt {data : List UInt8} (h : c.WellFormed blkSz hdrSz)
    (hb : c.body = .raw data) : blkSz * c.blocks < 2 ^ 32 ∧ data.length = blkSz * c.blocks := by
  have hlen := h.raw data hb
  have htotal := h.total_lt
  rw [Chunk.payload, hb] at htotal
  dsimp only at htotal
  rw [mul_comm] at hlen
  exact ⟨by omega, hlen⟩

end Chunks

/-! ### One round -/

section Round

variable {dev : BlockDev} {info : DiskPartition} {memalign : Bool}
  {mem : ℕ → UInt8} {h : SparseHeader} {c : FbChunk} {s : Flash}

/-- The fields of a chunk in memory. -/
theorem chunk_fields {blkSz : ℕ} (hc : c.WellFormed blkSz h.chunkHdrSz)
    (hmem : Contains mem s.data (c.encode h.chunkHdrSz)) :
    u16At mem s.data = c.chunkType ∧ u32At mem (s.data + 4) = c.blocks ∧
      u32At mem (s.data + 8) = h.chunkHdrSz + c.payload.length ∧
      Contains mem (s.data + 12 + (h.chunkHdrSz - 12)) c.payload := by
  have htype : c.chunkType < 2 ^ 16 := by
    rw [Chunk.chunkType]
    split <;> decide
  obtain ⟨h0, hmem⟩ := hmem.ofLe_append htype
  obtain ⟨-, hmem⟩ := hmem.ofLe_append hc.reserved_lt
  obtain ⟨h4, hmem⟩ := hmem.ofLe_append hc.blocks_lt
  obtain ⟨h8, hmem⟩ := hmem.ofLe_append hc.total_lt
  have hpay := (contains_append.mp hmem).2
  have hpad := hc.pad_length
  refine ⟨h0, h4, h8, ?_⟩
  rw [show s.data + 12 + (h.chunkHdrSz - 12) = s.data + 2 + 2 + 4 + 4 + c.pad.length by omega]
  exact hpay

/-- The loop that fills blocks. -/
theorem fillBlocks_eq (hok : ∀ b n, dev.blockWrite b n = true) (buf : List UInt8)
    (n : ℕ) (s : Flash) (hlt : s.blk + n < 2 ^ 64) :
    fillBlocks dev buf n s = .ok { s with
      blk := s.blk + n
      writes := s.writes ++ (range n).map fun i => ((s.blk + i) * dev.blksz, buf) } := by
  induction n generalizing s with
  | zero => simp [fillBlocks]
  | succ n ih =>
    rw [fillBlocks, if_pos (hok _ _), ih _ (by dsimp only; omega)]
    rw [Nat.mod_eq_of_lt (by omega : s.blk + 1 < 2 ^ 64), range_succ_eq_map]
    simp [add_assoc, add_comm 1]

theorem length_encode (c : FbChunk) (hdrSz : ℕ) :
    (c.encode hdrSz).length = 12 + c.pad.length + c.payload.length := by
  simp only [FbChunk.encode, length_append, length_leBytes]
  omega

/-- A round reads a chunk, writes it and goes on behind it. -/
theorem chunkStep_eq (info : DiskPartition) (memalign : Bool)
    (hok : ∀ b n, dev.blockWrite b n = true) (hc : c.WellFormed h.blkSz h.chunkHdrSz)
    (hdvd : dev.blksz ∣ h.blkSz) (hdvd' : dev.blksz ∣ 2 ^ 32)
    (hmem : Contains mem s.data (c.encode h.chunkHdrSz))
    (hroom : s.blk + sectors dev h.blkSz c ≤ info.start + info.size)
    (halloc : ∀ value, c.body = .fill value → memalign = true) :
    chunkStep dev info memalign mem h s =
        .ok ⟨s.data + (c.encode h.chunkHdrSz).length, s.blk + sectors dev h.blkSz c,
        (s.totalBlocks + countedBlocks h.blkSz c) % 2 ^ 32, s.writes ++ chunkWrites dev
          h.blkSz s.blk c⟩ := by
  obtain ⟨h0, h4, h8, hpay⟩ := chunk_fields hc hmem
  have hend := info.end_lt
  have hpad := hc.pad_length
  have htotal := hc.total_lt
  rw [length_encode, chunkStep]
  rw [h0, h4, h8, ← sectors, Nat.mod_eq_of_lt (by omega : s.blk + sectors dev h.blkSz c < 2 ^ 64)]
  cases hb : c.body with
  | raw data =>
    obtain ⟨hlt, hlen⟩ := hc.raw_lt hb
    have hpayload : c.payload = data := by rw [Chunk.payload, hb]
    rw [hpayload] at hpay htotal ⊢
    have hdata := hpay.load_eq
    have hdvd : dev.blksz ∣ h.blkSz * c.blocks % 2 ^ 32 :=
      (Nat.dvd_mod_iff hdvd').mpr (dvd_trans hdvd (dvd_mul_right _ _))
    rw [if_pos (show c.chunkType = chunkTypeRaw by rw [Chunk.chunkType, hb]),
      if_neg (by rw [Nat.mod_eq_of_lt hlt, ← hlen, Nat.mod_eq_of_lt htotal]; exact not_not.mpr rfl),
      if_neg (by omega), if_pos (hok _ _), sectors, Nat.div_mul_cancel hdvd, Nat.mod_eq_of_lt hlt,
        ← hlen, hdata,
      countedBlocks, chunkWrites, hb,
      show s.data + 12 + (h.chunkHdrSz - 12) + data.length = s.data +
          (12 + c.pad.length + data.length) by omega]
  | fill value =>
    have hpayload : c.payload = leBytes 4 value := by rw [Chunk.payload, hb]
    rw [hpayload] at hpay ⊢
    have hvalue : u32At mem (s.data + 12 + (h.chunkHdrSz - 12)) = value := by
      exact (hpay.ofLe_append (hc.fill value hb)).1
    have htype : c.chunkType = chunkTypeFill := by rw [Chunk.chunkType, hb]
    rw [if_neg (by rw [htype]; decide), if_pos htype, length_leBytes, if_neg (not_not.mpr rfl),
      if_neg (not_not.mpr (halloc value hb)), if_neg (by omega), hvalue,
      fillBlocks_eq hok _ _ _ (by omega)]
    rw [countedBlocks, chunkWrites, hb,
      show s.data + (12 + c.pad.length + 4) = s.data + 12 + (h.chunkHdrSz - 12) + 4 by omega]
    rfl
  | dontCare =>
    have hpayload : c.payload = [] := by rw [Chunk.payload, hb]
    have htype : c.chunkType = chunkTypeDontCare := by rw [Chunk.chunkType, hb]
    rw [hpayload, if_neg (by rw [htype]; decide), if_neg (by rw [htype]; decide),
      if_pos htype, countedBlocks, chunkWrites, hb, append_nil, length_nil,
      show s.data + 12 + (h.chunkHdrSz - 12) = s.data + (12 + c.pad.length + 0) by omega]

/-- Without a buffer a filled chunk is not written. -/
theorem chunkStep_fill_error {value : ℕ} (hc : c.WellFormed h.blkSz h.chunkHdrSz)
    (hmem : Contains mem s.data (c.encode h.chunkHdrSz)) (hb : c.body = .fill value) :
    chunkStep dev info false mem h s = .error ("Malloc failed for: CHUNK_TYPE_FILL", s.writes) := by
  obtain ⟨h0, h4, h8, -⟩ := chunk_fields hc hmem
  have hpayload : c.payload = leBytes 4 value := by rw [Chunk.payload, hb]
  have htype : c.chunkType = chunkTypeFill := by rw [Chunk.chunkType, hb]
  rw [chunkStep, h0, h8, hpayload, length_leBytes, if_neg (by rw [htype]; decide), if_pos htype,
    if_neg (not_not.mpr rfl), if_pos Bool.false_ne_true]

end Round

variable {cs : List FbChunk}

/-! ### The loop -/

section Loop

variable {dev : BlockDev} {info : DiskPartition} {memalign : Bool} {mem : ℕ → UInt8} {h : SparseHeader}

/-- The writes of consecutive chunks. -/
def runWrites (dev : BlockDev) (blkSz : ℕ) : ℕ → List FbChunk → DeviceWrites
  | _, [] => []
  | blk, c :: cs => chunkWrites dev blkSz blk c ++ runWrites dev blkSz (blk + sectors dev blkSz c) cs

/-- The chunks lie in memory, and there is room for them. -/
structure Pending (dev : BlockDev) (info : DiskPartition) (mem : ℕ → UInt8) (h : SparseHeader)
    (cs : List FbChunk) (s : Flash) : Prop where
  wellFormed : ∀ c ∈ cs, c.WellFormed h.blkSz h.chunkHdrSz
  mem : Contains mem s.data (cs.flatMap (FbChunk.encode h.chunkHdrSz))
  room : s.blk + (cs.map (realSectors dev h.blkSz)).sum ≤ info.start + info.size

variable (hok : ∀ b n, dev.blockWrite b n = true) (hdvd : dev.blksz ∣ h.blkSz) (hdvd' : dev.blksz ∣ 2 ^ 32)
include hok hdvd hdvd'

theorem Pending.step {c : FbChunk} {s : Flash} (hp : Pending dev info mem h (c :: cs) s)
    (halloc : ∀ value, c.body = .fill value → memalign = true) :
    ∃ s', chunkStep dev info memalign mem h s = .ok s' ∧ Pending dev info mem h cs s' ∧
      s'.writes = s.writes ++ chunkWrites dev h.blkSz s.blk c ∧ s'.blk = s.blk + sectors dev h.blkSz c ∧
      s'.totalBlocks = (s.totalBlocks + countedBlocks h.blkSz c) % 2 ^ 32 := by
  have hroom := hp.room
  rw [map_cons, sum_cons] at hroom
  have hle : sectors dev h.blkSz c ≤ realSectors dev h.blkSz c := sectors_le c
  obtain ⟨hhead, htail⟩ := contains_append.mp (flatMap_cons ▸ hp.mem)
  have hstep := chunkStep_eq info memalign hok (hp.wellFormed c mem_cons_self) hdvd hdvd'
    hhead (by omega) halloc
  exact ⟨_, hstep, ⟨(forall_mem_cons.mp hp.wellFormed).2, htail, by dsimp only; omega⟩, rfl, rfl, rfl⟩

/-- The loop over chunks that are in memory. -/
theorem chunkLoop_eq {s : Flash} (hp : Pending dev info mem h cs s)
    (halloc : ∀ c ∈ cs, ∀ value, c.body = .fill value → memalign = true)
    (hcount : s.totalBlocks < 2 ^ 32) :
    ∃ s', chunkLoop dev info memalign mem h cs.length s = .ok s' ∧
      s'.writes = s.writes ++ runWrites dev h.blkSz s.blk cs ∧
      s'.totalBlocks = (s.totalBlocks + (cs.map (countedBlocks h.blkSz)).sum) % 2 ^ 32 := by
  induction cs generalizing s with
  | nil =>
    refine ⟨s, rfl, (append_nil _).symm, ?_⟩
    rw [map_nil, sum_nil, add_zero, Nat.mod_eq_of_lt hcount]
  | cons c cs ih =>
    obtain ⟨s₁, hstep, hp', hwrites, hblk, htotal⟩ := hp.step hok hdvd hdvd' (halloc c mem_cons_self)
    obtain ⟨s', hloop, hwrites', htotal'⟩ := ih hp' (forall_mem_cons.mp halloc).2
        (htotal ▸ Nat.mod_lt _ (by decide))
    refine ⟨s', ?_, ?_, ?_⟩
    · rw [length_cons, chunkLoop, hstep]
      exact hloop
    · rw [hwrites', hwrites, hblk, runWrites, append_assoc]
    · rw [htotal', htotal, map_cons, sum_cons, Nat.mod_add_mod, add_assoc]

/-- Without a buffer the loop stops at a filled chunk. -/
theorem chunkLoop_error {s : Flash} (hp : Pending dev info mem h cs s)
    (hfill : ∃ c ∈ cs, ∃ value, c.body = .fill value) : ∃ e, chunkLoop dev info false mem h
    cs.length s = .error e := by
  induction cs generalizing s with
  | nil =>
    obtain ⟨c, hc, -⟩ := hfill
    cases hc
  | cons c cs ih =>
    rw [length_cons, chunkLoop]
    by_cases hb : ∃ value, c.body = .fill value
    · obtain ⟨value, hb⟩ := hb
      rw [chunkStep_fill_error (hp.wellFormed c mem_cons_self)
        (contains_append.mp (flatMap_cons ▸ hp.mem)).1 hb]
      exact ⟨_, rfl⟩
    · obtain ⟨s₁, hstep, hp', -⟩ := hp.step hok hdvd hdvd' fun value hv => absurd ⟨value, hv⟩ hb
      rw [hstep]
      exact ih hp' (((exists_mem_cons_iff ..).mp hfill).resolve_left hb)

end Loop

/-! ### Where the bytes end up -/

section Places

variable {dev : BlockDev} {blkSz hdrSz : ℕ} {c : FbChunk} {cs : List FbChunk} {blk : ℕ}
  {ws : DeviceWrites} {content : List (Option UInt8)}

/-- Filled blocks, one after the other. -/
theorem exact_fill (hx : Exact ws content) (value n : ℕ) (hlen : content.length = blk * dev.blksz) :
    Exact (ws ++ (range n).map fun i => ((blk + i) * dev.blksz, fillBytes value dev.blksz))
      (content ++ (fillBytes value (n * dev.blksz)).map some) := by
  induction n with
  | zero => simpa [fillBytes] using hx
  | succ n ih =>
    have hlast := ih.append_write (fillBytes value dev.blksz)
    have hdvd : 4 ∣ n * dev.blksz := Nat.dvd_mul_left_of_dvd (four_dvd_blksz dev) n
    rw [length_append, length_map, length_fillBytes _ hdvd, hlen, ← add_mul, append_assoc,
      append_assoc content, ← map_append, ← fillBytes_add _ _ hdvd, ← Nat.succ_mul] at hlast
    rw [range_succ, map_append]
    exact hlast

theorem length_expand (hc : c.WellFormed blkSz hdrSz) (hdvd : dev.blksz ∣ blkSz) :
    (c.toChunk.expand blkSz).length = realSectors dev blkSz c * dev.blksz := by
  rw [realSectors_mul hdvd, mul_comm]
  unfold Chunk.expand
  split
  · next data hb => rw [length_map, hc.raw data hb]
  · rw [length_map, length_fillBytes]
    exact Nat.dvd_mul_left_of_dvd (dvd_trans (four_dvd_blksz dev) hdvd) _
  · rw [length_replicate]

/-- A chunk below 4 GiB is written where it belongs. -/
theorem exact_chunk (hx : Exact ws content)
    (hlen : content.length = blk * dev.blksz) (hdvd : dev.blksz ∣ blkSz)
    (hsize : blkSz * c.blocks < 2 ^ 32) :
    Exact (ws ++ chunkWrites dev blkSz blk c) (content ++ c.toChunk.expand blkSz) := by
  rw [chunkWrites, Chunk.expand]
  cases c.body with
  | raw data =>
    rw [← hlen]
    exact hx.append_write data
  | fill value =>
    have hfill := exact_fill hx value (sectors dev blkSz c) hlen
    rw [sectors_eq hsize, realSectors_mul hdvd, mul_comm blkSz] at hfill
    rw [sectors_eq hsize]
    exact hfill
  | dontCare =>
    rw [append_nil]
    exact hx.append_none _

theorem FbChunk.not_given (hnone : ¬ c.Given) (hb : c.body ≠ .dontCare) : c.blocks = 0 :=
  Nat.eq_zero_of_not_pos fun hpos => hnone ⟨hb, hpos⟩

/-- A chunk that gives nothing writes nothing. -/
theorem chunkWrites_empty (hc : c.WellFormed blkSz hdrSz) (hnone : ¬ c.Given) :
    ∀ w ∈ chunkWrites dev blkSz blk c, w.2 = [] := by
  intro w hw
  rw [chunkWrites] at hw
  split at hw
  · next data hb =>
    have hlen := hc.raw data hb
    rw [FbChunk.not_given hnone (by simp [hb]), zero_mul] at hlen
    rw [mem_singleton.mp hw]
    exact eq_nil_of_length_eq_zero hlen
  · next hb =>
    rw [sectors, FbChunk.not_given hnone (by simp [hb])] at hw
    simp at hw
  · cases hw

theorem expand_none (hc : c.WellFormed blkSz hdrSz) (hdvd : dev.blksz ∣ blkSz) (hnone : ¬ c.Given) :
    ∀ x ∈ c.toChunk.expand blkSz, x = none := by
  intro x hx
  by_cases hb : c.body = .dontCare
  · rw [Chunk.expand, hb] at hx
    exact eq_of_mem_replicate hx
  · have hlen := length_expand hc hdvd
    rw [realSectors, FbChunk.not_given hnone hb, mul_zero, Nat.zero_div, zero_mul] at hlen
    rw [eq_nil_of_length_eq_zero hlen] at hx
    cases hx

/-- Every byte of a chunk that is not a hole is given. -/
theorem exists_getElem?_expand (hb : c.body ≠ .dontCare) {e : ℕ}
    (he : e < (c.toChunk.expand blkSz).length) : ∃ b, (c.toChunk.expand blkSz)[e]? = some (some b) := by
  have hgen : ∀ l : List UInt8, e < (l.map some).length → ∃ b, (l.map some)[e]? = some (some b) := by
    intro l hl
    rw [length_map] at hl
    exact ⟨l[e], by rw [getElem?_map, getElem?_eq_getElem hl, Option.map_some]⟩
  revert he
  unfold Chunk.expand
  split
  · exact hgen _
  · exact hgen _
  · next hbody => exact absurd hbody hb

theorem runWrites_empty (hcs : ∀ c ∈ cs, c.WellFormed blkSz hdrSz) (hnone : ∀ c ∈ cs, ¬ c.Given) :
    ∀ w ∈ runWrites dev blkSz blk cs, w.2 = [] := by
  induction cs generalizing blk with
  | nil =>
    intro w hw
    cases hw
  | cons c cs ih =>
    intro w hw
    rcases mem_append.mp hw with hw | hw
    · exact chunkWrites_empty (hcs c mem_cons_self) (hnone c mem_cons_self) w hw
    · exact ih (forall_mem_cons.mp hcs).2 (forall_mem_cons.mp hnone).2 w hw

/-- Chunks below 4 GiB are written where they belong. -/
theorem exact_run (hx : Exact ws content) (hlen : content.length = blk * dev.blksz)
    (hdvd : dev.blksz ∣ blkSz) (hcs : ∀ c ∈ cs, c.WellFormed blkSz hdrSz) (hsized : Sized blkSz cs) :
    Exact (ws ++ runWrites dev blkSz blk cs) (content ++ cs.flatMap fun c => c.toChunk.expand blkSz) := by
  induction cs generalizing ws content blk with
  | nil => simpa [runWrites] using hx
  | cons c cs ih =>
    obtain ⟨hsize | hnone, hrest⟩ := hsized
    · have hchunk := exact_chunk hx hlen hdvd hsize
      have hend : (content ++ c.toChunk.expand blkSz).length = (blk + sectors dev blkSz c) *
        dev.blksz := by
        rw [length_append, hlen, length_expand (hcs c mem_cons_self) hdvd, sectors_eq hsize, add_mul]
      have hrun := ih hchunk hend (forall_mem_cons.mp hcs).2 hrest
      rw [append_assoc, append_assoc] at hrun
      exact hrun
    · -- nothing is given any more
      have hall : ∀ x ∈ (c :: cs).flatMap fun c => c.toChunk.expand blkSz, x = none := by
        intro x hx
        obtain ⟨c', hc', hx'⟩ := mem_flatMap.mp hx
        exact expand_none (hcs c' hc') hdvd (hnone c' hc') x hx'
      rw [eq_replicate_of_mem hall]
      exact (hx.append_none _).append_empty (runWrites_empty hcs hnone)

/-- A chunk does not write behind its sectors. -/
theorem chunkWrites_uncovered (hc : c.WellFormed blkSz hdrSz) (hdvd : dev.blksz ∣ blkSz) {i : ℕ}
    (hi : (blk + sectors dev blkSz c) * dev.blksz ≤ i) : ∀ w ∈ chunkWrites dev blkSz blk c,
    cellAt w i = none := by
  intro w hw
  suffices hend : w.1 + w.2.length ≤ i by rw [cellAt, if_pos (by omega), getElem?_eq_none (by omega)]
  rw [chunkWrites] at hw
  split at hw
  · next data hb =>
    obtain ⟨hlt, hlen⟩ := hc.raw_lt hb
    rw [mem_singleton.mp hw, hlen, ← realSectors_mul hdvd, ← sectors_eq hlt, ← add_mul]
    exact hi
  · obtain ⟨j, hj, rfl⟩ := mem_map.mp hw
    rw [mem_range] at hj
    rw [length_fillBytes _ (four_dvd_blksz dev), ← Nat.succ_mul]
    exact (Nat.mul_le_mul_right _ (by omega)).trans hi
  · cases hw

theorem sized_of_not_given (hnone : ∀ c ∈ cs, ¬ c.Given) : Sized blkSz cs := by
  induction cs with
  | nil => trivial
  | cons c cs ih => exact ⟨.inr hnone, ih (forall_mem_cons.mp hnone).2⟩

/-- If given bytes follow a chunk of 4 GiB or more, the last one of them is not written. -/
theorem exists_lost (hblk : 0 < blkSz) (hdvd : dev.blksz ∣ blkSz) (hdvd' : dev.blksz ∣ 2 ^ 32)
    (hcs : ∀ c ∈ cs, c.WellFormed blkSz hdrSz) {real : ℕ} (hle : blk ≤ real)
    (hlost : blk < real ∨ ¬ Sized blkSz cs) (hgiven : ∃ c ∈ cs, c.Given) :
    ∃ e b, (cs.flatMap fun c => c.toChunk.expand blkSz)[e]? = some (some b) ∧
      ∀ w ∈ runWrites dev blkSz blk cs, cellAt w (real * dev.blksz + e) = none := by
  induction cs generalizing blk real with
  | nil =>
    obtain ⟨c, hc, -⟩ := hgiven
    cases hc
  | cons c cs ih =>
    have hc := hcs c mem_cons_self
    have hcs' : ∀ c' ∈ cs, c'.WellFormed blkSz hdrSz := (forall_mem_cons.mp hcs).2
    have hlen := length_expand hc hdvd
    have hsec : sectors dev blkSz c ≤ realSectors dev blkSz c := sectors_le c
    -- the loop is behind after this chunk, or a later one is too long
    have hbehind : blk + sectors dev blkSz c < real + realSectors dev blkSz c ∨ ¬ Sized blkSz cs := by
      rcases hlost with hlt | hsized
      · exact .inl (by omega)
      · by_cases hsize : blkSz * c.blocks < 2 ^ 32
        · exact .inr fun hrest => hsized ⟨.inl hsize, hrest⟩
        · exact .inl (Nat.add_lt_add_of_le_of_lt hle (sectors_lt hdvd' (not_lt.mp hsize)))
    by_cases hlater : ∃ c' ∈ cs, c'.Given
    · obtain ⟨e, b, hget, hnone⟩ := ih hcs' (by omega : _ ≤ real + realSectors dev blkSz c) hbehind hlater
      refine ⟨realSectors dev blkSz c * dev.blksz + e, b, ?_, fun w hw => ?_⟩
      · rw [flatMap_cons, ← hlen, getElem?_append_right (Nat.le_add_right _ _), Nat.add_sub_cancel_left]
        exact hget
      rw [← add_assoc, ← add_mul]
      rcases mem_append.mp hw with hw | hw
      · refine chunkWrites_uncovered hc hdvd ?_ w hw
        exact (Nat.mul_le_mul_right _ (by omega)).trans (Nat.le_add_right _ _)
      · exact hnone w hw
    · -- this chunk is the last one that gives something
      have hnone : ∀ c' ∈ cs, ¬ c'.Given := fun c' hc' hg => hlater ⟨c', hc', hg⟩
      have hthis : c.Given := ((exists_mem_cons_iff ..).mp hgiven).resolve_right hlater
      have hlt := hbehind.resolve_right (not_not.mpr (sized_of_not_given hnone))
      have hbytes : 0 < realSectors dev blkSz c * dev.blksz := by
        rw [realSectors_mul hdvd]
        exact Nat.mul_pos hblk hthis.2
      have hmul := Nat.mul_le_mul_right dev.blksz hlt
      rw [Nat.succ_mul, Nat.add_mul real] at hmul
      have hpos := blksz_pos dev
      obtain ⟨b, hget⟩ := exists_getElem?_expand hthis.1
        (e := realSectors dev blkSz c * dev.blksz - 1) (by rw [hlen]; omega)
      refine ⟨realSectors dev blkSz c * dev.blksz - 1, b, ?_, fun w hw => ?_⟩
      · rw [flatMap_cons, getElem?_append_left (by rw [hlen]; omega)]
        exact hget
      rcases mem_append.mp hw with hw | hw
      · exact chunkWrites_uncovered hc hdvd (by omega) w hw
      · rw [cellAt, runWrites_empty hcs' hnone w hw, getElem?_nil, ite_self]

end Places

/-! ### The image -/

section Image

variable {img : FbImage} {dev : BlockDev} {info : DiskPartition} {memalign : Bool}
    {mem : ℕ → UInt8} {data : ℕ}

/-- The header of an image in memory. -/
theorem sparseHeaderAt_eq (hmem : Contains mem data img.encode) :
    sparseHeaderAt mem data = ⟨28 + img.pad.length, img.chunkHdrSz, img.blkSz, img.totalBlks,
      img.chunks.length⟩ ∧ Contains mem (data + 28 + img.pad.length)
      (img.chunks.flatMap (FbChunk.encode img.chunkHdrSz)) := by
  rw [FbImage.encode, FbImage.header] at hmem
  simp only [append_assoc] at hmem
  have hskip : ∀ {n x a : ℕ} {l : List UInt8}, Contains mem a (leBytes n x ++ l) →
    Contains mem (a + n) l := by
    intro n x a l h
    have hrest := (contains_append.mp h).2
    rwa [length_leBytes] at hrest
  obtain ⟨h8, hmem⟩ := (hskip (hskip (hskip hmem))).ofLe_append img.pad_lt
  obtain ⟨h10, hmem⟩ := hmem.ofLe_append img.chunkHdrSz_lt
  obtain ⟨h12, hmem⟩ := hmem.ofLe_append img.blkSz_lt
  obtain ⟨h16, hmem⟩ := hmem.ofLe_append img.totalBlks_lt
  obtain ⟨h20, hmem⟩ := hmem.ofLe_append img.chunks_lt
  refine ⟨?_, (contains_append.mp (hskip hmem)).2⟩
  simp only [sparseHeaderAt, u16At, u32At]
  rw [h8, h10, h12, h16, h20]

theorem blkSz_masked (hfits : img.Fits dev info) :
    BitVec.ofNat 64 img.blkSz = BitVec.ofNat 64 img.blkSz &&& ~~~(BitVec.ofNat 64 dev.blksz - 1) := by
  have hlt := img.blkSz_lt
  have hle := Nat.le_of_dvd img.blkSz_pos hfits.dvd
  have hnat : (BitVec.ofNat 64 dev.blksz).toNat = dev.blksz := by
    rw [BitVec.toNat_ofNat, Nat.mod_eq_of_lt (by omega)]
  refine BitVec.eq_of_toNat_eq ?_
  rw [toNat_and_not_sub_one (hnat.trans dev.blksz_eq), hnat, BitVec.toNat_ofNat,
    Nat.mod_eq_of_lt (by omega),
    roundDown, Nat.div_mul_cancel hfits.dvd]

theorem sum_realSectors_mul (hdvd : dev.blksz ∣ img.blkSz) (cs : List FbChunk) :
    (cs.map (realSectors dev img.blkSz)).sum * dev.blksz = (cs.map fun c => c.blocks).sum * img.blkSz := by
  induction cs with
  | nil => simp
  | cons c cs ih =>
    simp only [map_cons, sum_cons, add_mul, ih, realSectors_mul hdvd, mul_comm img.blkSz]

/-- The chunks have room in the partition. -/
theorem sum_realSectors_le (hfits : img.Fits dev info) :
    (img.chunks.map (realSectors dev img.blkSz)).sum ≤ info.size := by
  refine Nat.le_of_mul_le_mul_right ?_ (blksz_pos dev)
  rw [sum_realSectors_mul hfits.dvd]
  exact hfits.size_le

/-- All blocks of a well-sized image are counted. -/
theorem sum_countedBlocks (hblk : 0 < img.blkSz) (hsized : Sized img.blkSz cs) :
    (cs.map (countedBlocks img.blkSz)).sum = (cs.map fun c => c.blocks).sum := by
  induction cs with
  | nil => rfl
  | cons c cs ih =>
    obtain ⟨hsize, hrest⟩ := hsized
    rw [map_cons, map_cons, sum_cons, ih hrest]
    congr 1
    rw [countedBlocks]
    split
    · next value hb =>
      rcases hsize with hsize | hnone
      · rw [Nat.mod_eq_of_lt hsize, Nat.mul_div_cancel_left _ hblk]
      · rw [FbChunk.not_given (hnone c mem_cons_self) (by simp [hb]), mul_zero, Nat.zero_mod, Nat.zero_div]
    · rfl

section Call

variable (hok : ∀ b n, dev.blockWrite b n = true) (hfits : img.Fits dev info)
  (hhdr : img.pad = [] ∨ img.chunks = []) (hmem : Contains mem data img.encode)

include hfits hhdr hmem in
theorem pending_first : Pending dev info mem
    ⟨28 + img.pad.length, img.chunkHdrSz, img.blkSz, img.totalBlks, img.chunks.length⟩ img.chunks
    ⟨data + (28 + img.pad.length) + (28 + img.pad.length - 28), info.start, 0, []⟩ := by
  refine ⟨img.wellFormed, ?_, Nat.add_le_add_left (sum_realSectors_le hfits) _⟩
  rcases hhdr with hpad | hchunks
  · have hfirst := (sparseHeaderAt_eq hmem).2
    rw [hpad] at hfirst ⊢
    exact hfirst
  · rw [hchunks]
    trivial

include hok hfits hhdr hmem

/-- What the call does with an image that is read from its first chunk on. -/
theorem writeSparseImage_eq (halloc : ∀ c ∈ img.chunks, ∀ value, c.body = .fill value →
    memalign = true) : writeSparseImage dev info memalign mem data =
      ((if (img.chunks.map (countedBlocks img.blkSz)).sum % 2 ^ 32 ≠ img.totalBlks then
          [.fail "sparse image write failure"] else []) ++ [.okay],
        runWrites dev img.blkSz info.start img.chunks) := by
  obtain ⟨s, hloop, hwrites, htotal⟩ :=
    chunkLoop_eq hok hfits.dvd (blksz_dvd hfits.dvd img.blkSz_pos img.blkSz_lt)
      (pending_first hfits hhdr hmem) halloc (Nat.two_pow_pos 32)
  rw [writeSparseImage, (sparseHeaderAt_eq hmem).1]
  rw [if_neg (not_not.mpr (blkSz_masked hfits)), hloop]
  dsimp only
  rw [hwrites, htotal, zero_add, nil_append]

/-- Without a buffer an image with a filled chunk is not flashed. -/
theorem writeSparseImage_fail (hfill : ∃ c ∈ img.chunks, ∃ value, c.body = .fill value) :
    ∃ e w, writeSparseImage dev info false mem data = ([.fail e], w) := by
  obtain ⟨e, he⟩ := chunkLoop_error hok hfits.dvd (blksz_dvd hfits.dvd img.blkSz_pos img.blkSz_lt)
    (pending_first hfits hhdr hmem) hfill
  refine ⟨e.1, e.2, ?_⟩
  rw [writeSparseImage, (sparseHeaderAt_eq hmem).1]
  rw [if_neg (not_not.mpr (blkSz_masked hfits)), he]

end Call

/-- The expanded image behind the blocks in front of the partition. -/
def placed (img : FbImage) (dev : BlockDev) (info : DiskPartition) : List (Option UInt8) :=
  List.replicate (info.start * dev.blksz) none ++ img.expanded

theorem flashed_eq (disk : ℕ → UInt8) (i : ℕ) :
    flashed img dev info disk i = ((placed img dev info)[i]?.join).getD (disk i) := by
  rw [flashed, placed]
  split
  · next hi => rw [getElem?_append_right (by rw [length_replicate]; exact hi), length_replicate]
  · next hi =>
    rw [getElem?_append_left (by rw [length_replicate]; omega)]
    simp [show i < info.start * dev.blksz by omega]

theorem applyWrites_eq_flashed (hfits : img.Fits dev info) (hsized : Sized img.blkSz img.chunks)
    (disk : ℕ → UInt8) : applyWrites disk (runWrites dev img.blkSz info.start img.chunks) = flashed
    img dev info disk := by
  have hexact : Exact (runWrites dev img.blkSz info.start img.chunks) (placed img dev info) :=
    exact_run (exact_nil.append_none _) length_replicate hfits.dvd img.wellFormed hsized
  funext i
  rw [flashed_eq]
  by_cases hgiven : ∃ b, (placed img dev info)[i]? = some (some b)
  · obtain ⟨b, hb⟩ := hgiven
    rw [hexact.applyWrites_eq disk hb, hb]
    rfl
  · rw [hexact.applyWrites_of_not_given disk fun b hb => hgiven ⟨b, hb⟩]
    rcases hx : (placed img dev info)[i]? with _ | _ | b
    · rfl
    · rfl
    · exact absurd ⟨b, hx⟩ hgiven

/-- Flashing an image whose file header is not extended leaves the expanded image in the partition
iff no chunk of 4 GiB or more is followed by given bytes or has some, and the buffer can be
allocated if it is needed. -/
theorem flashesExpansion_iff (img : FbImage) (dev : BlockDev) (info : DiskPartition)
    (memalign : Bool)
    (hok : ∀ b n, dev.blockWrite b n = true) (hfits : img.Fits dev info)
      (hhdr : img.pad = [] ∨ img.chunks = []) :
    FlashesExpansion img dev info memalign ↔
      Sized img.blkSz img.chunks ∧ ∀ c ∈ img.chunks, ∀ value, c.body = .fill value → memalign = true := by
  have hdvd' := blksz_dvd hfits.dvd img.blkSz_pos img.blkSz_lt
  constructor
  · intro hflash
    have hmem := contains_ofList img.encode 0
    have halloc : ∀ c ∈ img.chunks, ∀ value, c.body = .fill value → memalign = true := by
      intro c hc value hb
      by_contra hno
      rw [Bool.not_eq_true] at hno
      subst hno
      obtain ⟨e, w, hfail⟩ := writeSparseImage_fail hok hfits hhdr hmem ⟨c, hc, value, hb⟩
      have hreport := (hflash _ 0 (fun _ => 0) hmem).1
      rw [hfail] at hreport
      cases hreport
    refine ⟨?_, halloc⟩
    by_contra hsized
    have hgiven : ∃ c ∈ img.chunks, c.Given := by
      by_contra hnone
      exact hsized (sized_of_not_given fun c hc hg => hnone ⟨c, hc, hg⟩)
    obtain ⟨e, b, hget, hnone⟩ := exists_lost img.blkSz_pos hfits.dvd hdvd' img.wellFormed le_rfl
        (.inr hsized) hgiven
    -- a device that has another byte there keeps it
    have hdisk := (hflash _ 0 (fun _ => b + 1) hmem).2
    rw [writeSparseImage_eq hok hfits hhdr hmem halloc] at hdisk
    have hbyte := congrFun hdisk (info.start * dev.blksz + e)
    rw [applyWrites_of_uncovered _ hnone, flashed, Nat.add_sub_cancel_left,
      FbImage.expanded, hget] at hbyte
    simp at hbyte
  · rintro ⟨hsized, halloc⟩ mem data disk hmem
    have hcount : (img.chunks.map (countedBlocks img.blkSz)).sum % 2 ^ 32 = img.totalBlks := by
      rw [sum_countedBlocks img.blkSz_pos hsized, Nat.mod_eq_of_lt img.totalBlks_lt, FbImage.totalBlks]
    rw [writeSparseImage_eq hok hfits hhdr hmem halloc, hcount, if_neg (not_not.mpr rfl)]
    exact ⟨rfl, applyWrites_eq_flashed hfits hsized disk⟩

end Image

/-- An image of one block with four bytes; its file header is followed by `pad`. -/
def oneBlock (pad : List UInt8) (hpad : 28 + pad.length < 2 ^ 16) : FbImage where
  minorVersion := 0
  blkSz := 4
  imageChecksum := 0
  chunkHdrSz := 12
  pad := pad
  chunks := [⟨⟨0, 1, .raw [1, 2, 3, 4]⟩, []⟩]
  blkSz_pos := by decide
  blkSz_lt := by decide
  chunkHdrSz_lt := by decide
  pad_lt := hpad
  chunks_lt := by decide
  totalBlks_lt := by decide
  wellFormed := by
    intro c hc
    rw [mem_singleton.mp hc]
    exact ⟨by decide, by decide, rfl, by decide, by simp, by simp⟩

/-- An image of four blocks: the one of `oneBlock`, a filled one, a hole and one with other
bytes. -/
def fourBlocks : FbImage :=
  { oneBlock [] (by decide) with
    chunks := [⟨⟨0, 1, .raw [1, 2, 3, 4]⟩, []⟩, ⟨⟨0, 1, .fill 7⟩, []⟩, ⟨⟨0, 1, .dontCare⟩, []⟩,
      ⟨⟨0, 1, .raw [5, 6, 7, 8]⟩, []⟩]
    chunks_lt := by decide
    totalBlks_lt := by decide
    wellFormed := by
      simp only [forall_mem_cons]
      refine ⟨?_, ?_, ?_, ?_, forall_mem_nil _⟩
      all_goals exact ⟨by decide, by decide, rfl, by decide, fun _ hb => by cases hb <;> rfl, by simp⟩ }

/-- A device with blocks of four bytes. -/
def wordDev : BlockDev where
  blksz := 4
  log2blksz := 2
  blockWrite := fun _ _ => true
  blksz_eq := rfl
  two_le := Nat.le_refl 2

/-- A partition of two blocks. -/
def twoBlocks : DiskPartition := ⟨1, 2, by decide⟩

theorem flashesExpansion_iff_fourBlocks : FlashesExpansion fourBlocks wordDev
    ⟨1, 4, by decide⟩ true :=
  (flashesExpansion_iff fourBlocks wordDev ⟨1, 4, by decide⟩ true (fun _ _ => rfl) ⟨by decide, by decide⟩
    (.inl rfl)).mpr ⟨⟨.inl (by decide), .inl (by decide), .inl (by decide), .inl (by decide), trivial⟩,
      fun _ _ _ _ => rfl⟩

/-- With a file header of 32 bytes the loop looks for the first chunk 4 bytes behind its place. -/
theorem not_flashesExpansion_oneBlock :
    ¬ FlashesExpansion (oneBlock [0, 0, 0, 0] (by decide)) wordDev twoBlocks true := by
  intro h
  have hreport := (h _ 0 (fun _ => 0) (contains_ofList _ 0)).1
  revert hreport
  decide +kernel

end UBoot.Fastboot
