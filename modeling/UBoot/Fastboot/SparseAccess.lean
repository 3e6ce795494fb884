import UBoot.Fastboot.SparseFlash

/-!
# Accesses and the response of `write_sparse_image`

The reads of the downloaded file and the writes to the device, in their order. A write that fails is
tried as well; nothing follows it. All calls of `fastboot_fail` and `fastboot_okay` leave their
message in one response.
-/

namespace UBoot.Fastboot

open UBoot.Common UBoot.Burning List

/-- A read of `n` bytes of the download, or the attempt to write `n` blocks. -/
inductive Access
  | read (a n : ℕ)
  | write (blk n : ℕ)
deriving DecidableEq

section

variable (dev : BlockDev) (info : DiskPartition) (memalign : Bool) (mem : ℕ → UInt8)

/-- The writes of `fillBlocks`. -/
def fillAccesses : ℕ → ℕ → List Access
  | 0, _ => []
  | n + 1, blk => .write blk 1 :: if dev.blockWrite blk 1 then fillAccesses n ((blk + 1) % 2 ^ 64) else []

/-- The accesses of `chunkStep`. The data of a raw chunk is read by `block_write`. -/
def chunkAccesses (h : SparseHeader) (s : Flash) : List Access :=
  let chunkType := u16At mem s.data
  let totalSz := u32At mem (s.data + 8)
  let data := s.data + 12 + (h.chunkHdrSz - 12)
  let chunkDataSz := h.blkSz * u32At mem (s.data + 4) % 2 ^ 32
  let blkcnt := chunkDataSz / dev.blksz
  .read s.data 12 ::
    if chunkType = chunkTypeRaw then
      if totalSz ≠ (h.chunkHdrSz + chunkDataSz) % 2 ^ 32 then []
      else if (s.blk + blkcnt) % 2 ^ 64 > info.start + info.size then []
      else [.read data (blkcnt * dev.blksz), .write s.blk blkcnt]
    else if chunkType = chunkTypeFill then
      if totalSz ≠ h.chunkHdrSz + 4 then []
      else if ¬ memalign then []
      else .read data 4 ::
        if (s.blk + blkcnt) % 2 ^ 64 > info.start + info.size then [] else fillAccesses dev blkcnt s.blk
    else []

/-- The accesses of `chunkLoop`. -/
def loopAccesses (h : SparseHeader) : ℕ → Flash → List Access
  | 0, _ => []
  | n + 1, s => chunkAccesses dev info memalign mem h s ++ match chunkStep dev info memalign mem h s with
      | .error _ => []
      | .ok s' => loopAccesses h n s'

/-- The state in which the loop over the chunks begins. -/
def firstFlash (data : ℕ) : Flash :=
  let h := sparseHeaderAt mem data
  ⟨data + h.fileHdrSz + (h.fileHdrSz - 28), info.start, 0, []⟩

/-- The accesses of `write_sparse_image`. -/
def accesses (data : ℕ) : List Access :=
  let h := sparseHeaderAt mem data
  let blkSz := BitVec.ofNat 64 h.blkSz
  .read data 28 :: if blkSz ≠ blkSz &&& ~~~(BitVec.ofNat 64 dev.blksz - 1) then []
    else loopAccesses dev info memalign mem h h.totalChunks (firstFlash info mem data)

/-- All writes that were tried succeeded, all chunks were accepted, and the number of blocks is
right. -/
def AllWritten (data : ℕ) : Prop :=
  let h := sparseHeaderAt mem data
  (∀ b k, .write b k ∈ accesses dev info memalign mem data → dev.blockWrite b k = true) ∧
    ∃ s, chunkLoop dev info memalign mem h h.totalChunks (firstFlash info mem data) = .ok s ∧
      s.totalBlocks = h.totalBlks

/-- Unless everything is written as it should be, the response is a failure. -/
def Truthful (data : ℕ) : Prop :=
  ¬ AllWritten dev info memalign mem data →
    ∃ reason, (writeSparseImage dev info memalign mem data).1.getLast? = some (.fail reason)

/-- `chunk_data_sz` of the chunk whose header is at `a`. -/
def dataSzAt (h : SparseHeader) (a : ℕ) : ℕ := h.blkSz * u32At mem (a + 4) % 2 ^ 32

/-- Where the header of the next chunk is. -/
def nextChunk (h : SparseHeader) (a : ℕ) : ℕ :=
  a + 12 + (h.chunkHdrSz - 12) +
    if u16At mem a = chunkTypeRaw ∨ u16At mem a = chunkTypeCrc32 then dataSzAt mem h a
    else if u16At mem a = chunkTypeFill then 4 else 0

/-- Where the next chunk is written. -/
def nextBlock (h : SparseHeader) (a blk : ℕ) : ℕ :=
  if u16At mem a = chunkTypeCrc32 then blk else (blk + dataSzAt mem h a / dev.blksz) % 2 ^ 64

/-- The blocks of a chunk by its header. -/
def blocksAt (h : SparseHeader) (a : ℕ) : ℕ :=
  if u16At mem a = chunkTypeFill then dataSzAt mem h a / h.blkSz else u32At mem (a + 4)

/-- The sum of the blocks in the headers of `n` chunks. -/
def imageBlocks (h : SparseHeader) : ℕ → ℕ → ℕ
  | 0, _ => 0
  | n + 1, a => blocksAt mem h a + imageBlocks h n (nextChunk mem h a)

/-- The header at `a` is that of a chunk which may be written from `blk` on, and the device writes
it. -/
def Acceptable (h : SparseHeader) (a blk : ℕ) : Prop :=
  let totalSz := u32At mem (a + 8)
  let blkcnt := dataSzAt mem h a / dev.blksz
  let room := (blk + blkcnt) % 2 ^ 64 ≤ info.start + info.size
  u16At mem a = chunkTypeRaw ∧ totalSz = (h.chunkHdrSz + dataSzAt mem h a) % 2 ^ 32 ∧ room ∧
      dev.blockWrite blk blkcnt = true ∨
    u16At mem a = chunkTypeFill ∧ totalSz = h.chunkHdrSz + 4 ∧ memalign = true ∧ room ∧
      (∀ i < blkcnt, dev.blockWrite ((blk + i) % 2 ^ 64) 1 = true) ∨
    u16At mem a = chunkTypeDontCare ∨
    u16At mem a = chunkTypeCrc32 ∧ totalSz = h.chunkHdrSz

/-- So are the `n` headers from `a` on. -/
def AllAcceptable (h : SparseHeader) : ℕ → ℕ → ℕ → Prop
  | 0, _, _ => True
  | n + 1, a, blk => Acceptable dev info memalign mem h a blk ∧
      AllAcceptable h n (nextChunk mem h a) (nextBlock dev mem h a blk)

/-- If the block size suits the device and all chunks can be written, their headers have as many
blocks as the header of the file says. -/
def CountsAgree (data : ℕ) : Prop :=
  let h := sparseHeaderAt mem data
  let blkSz := BitVec.ofNat 64 h.blkSz
  let first := data + h.fileHdrSz + (h.fileHdrSz - 28)
  blkSz = blkSz &&& ~~~(BitVec.ofNat 64 dev.blksz - 1) →
    AllAcceptable dev info memalign mem h h.totalChunks first info.start →
      imageBlocks mem h h.totalChunks first % 2 ^ 32 = h.totalBlks

end

variable {dev : BlockDev} {info : DiskPartition} {memalign : Bool} {mem : ℕ → UInt8}
    {h : SparseHeader} {s s' : Flash}

theorem fillAccesses_ok {buf : List UInt8} {n : ℕ} (hok : fillBlocks dev buf n s = .ok s') :
    ∀ b k, .write b k ∈ fillAccesses dev n s.blk → dev.blockWrite b k = true := by
  induction n generalizing s with
  | zero => exact fun b k hw => absurd hw not_mem_nil
  | succ n ih =>
    rw [fillBlocks] at hok
    split at hok
    · next hwrite =>
      intro b k hw
      rw [fillAccesses, if_pos hwrite, mem_cons] at hw
      rcases hw with heq | hw
      · cases heq
        exact hwrite
      · exact ih hok b k hw
    · cases hok

/-- A chunk that is accepted has been written. -/
theorem chunkAccesses_ok (hok : chunkStep dev info memalign mem h s = .ok s') :
    ∀ b k, .write b k ∈ chunkAccesses dev info memalign mem h s → dev.blockWrite b k = true := by
  intro b k hw
  simp only [chunkStep, chunkAccesses, mem_cons, reduceCtorEq, false_or] at hok hw
  split_ifs at hok hw with _ _ _ hwrite
  · simp only [mem_cons, reduceCtorEq, false_or, Access.write.injEq, not_mem_nil, or_false] at hw
    rw [hw.1, hw.2]
    exact hwrite
  · have hfill := (mem_cons.mp hw).resolve_left (by simp)
    generalize hblocks : fillBlocks dev _ _ s = r at hok
    cases r with
    | error e => cases hok
    | ok s₁ => exact fillAccesses_ok hblocks b k hfill
  · cases hw
  · cases hw

theorem loopAccesses_ok {n : ℕ} (hok : chunkLoop dev info memalign mem h n s = .ok s') :
    ∀ b k, .write b k ∈ loopAccesses dev info memalign mem h n s → dev.blockWrite b k = true := by
  induction n generalizing s with
  | zero => exact fun b k hw => absurd hw not_mem_nil
  | succ n ih =>
    rw [chunkLoop] at hok
    intro b k hw
    rw [loopAccesses, mem_append] at hw
    generalize hstep : chunkStep dev info memalign mem h s = r at hok hw
    cases r with
    | error e => cases hok
    | ok s₁ => exact hw.elim (chunkAccesses_ok hstep b k) (ih hok b k)

/-! ### The headers of the chunks -/

theorem nextBlock_lt {a blk : ℕ} (hblk : blk < 2 ^ 64) : nextBlock dev mem h a blk < 2 ^ 64 := by
  rw [nextBlock]
  split
  · exact hblk
  · exact Nat.mod_lt _ (by decide)

/-- The loop that fills blocks ends if and only if all its writes succeed. -/
theorem fillBlocks_isOk_iff (dev : BlockDev) (buf : List UInt8) (n : ℕ) (hblk : s.blk < 2 ^ 64) :
    (∃ s', fillBlocks dev buf n s = .ok s') ↔ ∀ i < n, dev.blockWrite ((s.blk + i) % 2 ^ 64) 1 = true := by
  induction n generalizing s with
  | zero => exact iff_of_true ⟨s, rfl⟩ fun i hi => absurd hi (Nat.not_lt_zero i)
  | succ n ih =>
    rw [fillBlocks, Nat.forall_lt_succ_left, add_zero, Nat.mod_eq_of_lt hblk]
    split
    · next hwrite =>
      rw [ih (Nat.mod_lt _ (by decide)), hwrite]
      simp only [true_and, Nat.mod_add_mod, add_assoc, add_comm 1]
    · next hwrite => exact iff_of_false (by simp) fun h => hwrite h.1

theorem fillBlocks_blk {buf : List UInt8} {n : ℕ} (hblk : s.blk < 2 ^ 64)
    (hok : fillBlocks dev buf n s = .ok s') : s'.blk = (s.blk + n) % 2 ^ 64 := by
  induction n generalizing s with
  | zero =>
    obtain rfl := Except.ok.inj hok
    exact (Nat.mod_eq_of_lt hblk).symm
  | succ n ih =>
    rw [fillBlocks] at hok
    split at hok
    · rw [ih (Nat.mod_lt _ (by decide)) hok, Nat.mod_add_mod, add_assoc, add_comm 1]
    · cases hok

theorem chunkTypes_ne : chunkTypeRaw ≠ chunkTypeFill ∧ chunkTypeRaw ≠ chunkTypeDontCare ∧
    chunkTypeRaw ≠ chunkTypeCrc32 ∧ chunkTypeFill ≠ chunkTypeDontCare ∧ chunkTypeFill ≠ chunkTypeCrc32 ∧
    chunkTypeDontCare ≠ chunkTypeCrc32 := by
  decide

/-- A round ends without a failure if and only if the header is acceptable. -/
theorem chunkStep_isOk_iff (hblk : s.blk < 2 ^ 64) :
    (∃ s', chunkStep dev info memalign mem h s = .ok s') ↔ Acceptable dev info memalign mem
    h s.data s.blk := by
  obtain ⟨hrf, hrd, hrc, hfd, hfc, hdc⟩ := chunkTypes_ne
  rw [chunkStep, Acceptable, dataSzAt]
  generalize h.blkSz * u32At mem (s.data + 4) % 2 ^ 32 = size
  by_cases hraw : u16At mem s.data = chunkTypeRaw
  · simp only [hraw, hrf, hrd, hrc, if_true, true_and, false_and, or_false]
    split_ifs <;> simp_all
  by_cases hfill : u16At mem s.data = chunkTypeFill
  · simp only [hfill, hrf.symm, hfd, hfc, if_true, if_false, true_and, false_and, false_or, or_false]
    split_ifs with htotal halloc hroom
    · simp [htotal]
    · exact iff_of_false (by simp) fun hacc => absurd hroom (Nat.not_lt.mpr hacc.2.2.1)
    · have hfills := fillBlocks_isOk_iff dev
        (fillBytes (u32At mem (s.data + 12 + (h.chunkHdrSz - 12))) dev.blksz) (size / dev.blksz) hblk
      generalize fillBlocks dev _ _ s = r at hfills ⊢
      rw [← hfills, and_iff_right (not_not.mp htotal), and_iff_right halloc,
        and_iff_right (Nat.not_lt.mp hroom)]
      cases r with
      | error e => exact iff_of_false (by rintro ⟨_, ⟨⟩⟩) (by rintro ⟨_, ⟨⟩⟩)
      | ok s₁ => exact iff_of_true ⟨_, rfl⟩ ⟨s₁, rfl⟩
    · simp [halloc]
  · simp only [hraw, hfill, if_false, false_and, false_or]
    split_ifs <;> simp_all

/-- How a round that ends without a failure goes on. -/
theorem chunkStep_next (hblk : s.blk < 2 ^ 64)
    (hok : chunkStep dev info memalign mem h s = .ok s') :
    s'.data = nextChunk mem h s.data ∧ s'.blk = nextBlock dev mem h s.data s.blk ∧
      s'.totalBlocks = (s.totalBlocks + blocksAt mem h s.data) % 2 ^ 32 := by
  obtain ⟨hrf, hrd, hrc, hfd, hfc, hdc⟩ := chunkTypes_ne
  rw [chunkStep] at hok
  rw [nextChunk, nextBlock, blocksAt, dataSzAt]
  generalize h.blkSz * u32At mem (s.data + 4) % 2 ^ 32 = size at hok ⊢
  split_ifs at hok with hraw _ _ _ hfill _ _ _ hdont hcrc _
  · obtain rfl := Except.ok.inj hok
    simp [hraw, hrf, hrc]
  · generalize hblocks : fillBlocks dev _ _ s = r at hok
    cases r with
    | error e => cases hok
    | ok s₁ =>
      obtain rfl := Except.ok.inj hok
      simp [hfill, hrf.symm, hfc, fillBlocks_blk hblk hblocks]
  · obtain rfl := Except.ok.inj hok
    simp [hdont, hrd.symm, hfd.symm, hdc]
  · obtain rfl := Except.ok.inj hok
    simp [hcrc, hfc.symm]

/-- The loop over the chunks ends without a failure if and only if all headers are acceptable, and
it counts the blocks in them. -/
theorem chunkLoop_isOk_iff {n : ℕ} (hblk : s.blk < 2 ^ 64) :
    (∃ s', chunkLoop dev info memalign mem h n s = .ok s') ↔
      AllAcceptable dev info memalign mem h n s.data s.blk := by
  induction n generalizing s with
  | zero => exact iff_of_true ⟨s, rfl⟩ trivial
  | succ n ih =>
    rw [chunkLoop, AllAcceptable, ← chunkStep_isOk_iff hblk]
    generalize hstep : chunkStep dev info memalign mem h s = r
    cases r with
    | error e => exact iff_of_false (by rintro ⟨_, ⟨⟩⟩) (by rintro ⟨⟨_, ⟨⟩⟩, _⟩)
    | ok s₁ =>
      obtain ⟨hdata, hnext, -⟩ := chunkStep_next hblk hstep
      rw [← hdata, ← hnext, ← ih (hnext ▸ nextBlock_lt hblk)]
      exact (and_iff_right ⟨s₁, rfl⟩).symm

theorem chunkLoop_totalBlocks {n : ℕ} (hblk : s.blk < 2 ^ 64) (hcount : s.totalBlocks < 2 ^ 32)
    (hok : chunkLoop dev info memalign mem h n s = .ok s') :
    s'.totalBlocks = (s.totalBlocks + imageBlocks mem h n s.data) % 2 ^ 32 := by
  induction n generalizing s with
  | zero =>
    obtain rfl := Except.ok.inj hok
    exact (Nat.mod_eq_of_lt hcount).symm
  | succ n ih =>
    rw [chunkLoop] at hok
    generalize hstep : chunkStep dev info memalign mem h s = r at hok
    cases r with
    | error e => cases hok
    | ok s₁ =>
      obtain ⟨hdata, hnext, hblocks⟩ := chunkStep_next hblk hstep
      rw [ih (hnext ▸ nextBlock_lt hblk) (hblocks ▸ Nat.mod_lt _ (by decide)) hok, hdata,
        hblocks, imageBlocks, Nat.mod_add_mod, add_assoc]

/-! ### The response -/

/-- The response can be relied on, except for a wrong number of blocks in the headers of the
chunks. -/
theorem truthful_iff_countsAgree (dev : BlockDev) (info : DiskPartition)
    (memalign : Bool) (mem : ℕ → UInt8) (data : ℕ) : Truthful dev info memalign mem data ↔
    CountsAgree dev info memalign mem data := by
  have hblk : (firstFlash info mem data).blk < 2 ^ 64 := (Nat.le_add_right _ _).trans_lt info.end_lt
  have htotal : ∀ s, chunkLoop dev info memalign mem (sparseHeaderAt mem data)
      (sparseHeaderAt mem data).totalChunks (firstFlash info mem data) = .ok s →
        s.totalBlocks = imageBlocks mem (sparseHeaderAt mem data)
        (sparseHeaderAt mem data).totalChunks (firstFlash info mem data).data % 2 ^ 32 := fun s hloop => by
    rw [chunkLoop_totalBlocks hblk (by decide : 0 < 2 ^ 32) hloop]
    exact congrArg (· % 2 ^ 32) (Nat.zero_add _)
  constructor
  · intro htrue hsz hall
    obtain ⟨s, hloop⟩ := (chunkLoop_isOk_iff hblk).mpr hall
    by_contra hne
    have hnot : ¬ AllWritten dev info memalign mem data := by
      rintro ⟨-, s', hloop', heq⟩
      exact hne ((htotal s' hloop').symm.trans heq)
    obtain ⟨reason, hlast⟩ := htrue hnot
    rw [firstFlash] at hloop
    simp only [writeSparseImage, if_neg (not_not.mpr hsz), hloop, getLast?_concat] at hlast
    cases hlast
  · intro hcount hnot
    rw [writeSparseImage]
    split
    · exact ⟨_, rfl⟩
    next hsz =>
    split
    · exact ⟨_, rfl⟩
    · next s hloop =>
      have hall := (chunkLoop_isOk_iff hblk).mp ⟨s, hloop⟩
      refine absurd ⟨fun b k hw => ?_, s, hloop, (htotal s hloop).trans
        (hcount (not_not.mp hsz) hall)⟩ hnot
      rw [accesses, if_neg hsz, mem_cons] at hw
      exact loopAccesses_ok hloop b k (hw.resolve_left (by simp))

/-- A header that counts one block, and no chunk. -/
def noChunk : List UInt8 :=
  [0x3a, 0xff, 0x26, 0xed, 1, 0, 0, 0, 28, 0, 12, 0, 4, 0, 0, 0, 1, 0, 0, 0, 0, 0, 0, 0, 0, 0, 0, 0]

/-- The response is OKAY though the block is missing. -/
theorem not_truthful_noChunk :
    (writeSparseImage wordDev twoBlocks true (ofList noChunk 0) 0).1.getLast? = some .okay ∧
      ¬ Truthful wordDev twoBlocks true (ofList noChunk 0) 0 := by
  have hokay : (writeSparseImage wordDev twoBlocks true (ofList noChunk 0) 0).1.getLast? = some .okay := by
    decide +kernel
  refine ⟨hokay, fun htrue => ?_⟩
  obtain ⟨reason, hfail⟩ := htrue fun hall => by
    obtain ⟨-, s, hloop, heq⟩ := hall
    obtain rfl : firstFlash twoBlocks (ofList noChunk 0) 0 = s := Except.ok.inj hloop
    exact absurd heq (by decide +kernel)
  cases hfail

end UBoot.Fastboot
