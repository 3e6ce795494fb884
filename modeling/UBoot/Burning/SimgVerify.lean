import UBoot.Burning.SimgBurn

/-!
# Verifying a burned sparse image

Reference: `optimus_sparse_back_info_probe` and `optimus_sparse_get_chunk_data` of
`v2_common/optimus_simg2img.c`, and `optimus_sha1sum_verify_partition` of
`v2_common/optimus_download.c`.

After a burn, the bytes of the image are put together again for a checksum: the headers come from
the area where the burn has backed them up, the data comes from the media. The result here is about
the stream of bytes that goes into the checksum and about the number of bytes that the loop thinks
it has left in the end.
-/

namespace UBoot.Burning

open UBoot.Common List

section

variable (media : ℕ → UInt8) (s : SimgState)

/-! ## The model -/

/-- `optimus_sparse_back_info_probe`. -/
def sparseBackInfoProbe : Bool :=
  if s.leftChunkNum ≠ 0 then false else simgProbe (load s.area 0 28)

/-- What `optimus_sparse_get_chunk_data` returns; `head` is relative to the backup area. -/
structure ChunkData where
  head : ℕ
  headSz : ℕ
  dataSz : ℕ
  dataOffset : ℕ

/-- The `switch` of `optimus_sparse_get_chunk_data`: the data that follows the header, if the header
is in order. -/
def dataSzOf (h : ChunkHeader) (chunkDataLen : ℕ) : Option ℕ :=
  if h.chunkType = chunkTypeRaw then
    if 12 + chunkDataLen ≠ h.totalSz then none else some chunkDataLen
  else if h.chunkType = chunkTypeDontCare then
    if 12 ≠ h.totalSz then none else some 0
  else if h.chunkType = chunkTypeFill then
    if 16 ≠ h.totalSz then none else some 4
  else none

/-- The loop of `optimus_sparse_get_chunk_data`, which goes on to the first chunk with data; the
first argument is `backChunkNum - leftChunkNum`. -/
def chunkDataLoop : ℕ → SimgState → ChunkData → Option (SimgState × ChunkData)
  | 0, s, q => some (s, q)
  | n + 1, s, q =>
    let h := ChunkHeader.read (load s.area (28 + 12 * s.leftChunkNum) 12)
    let chunkDataLen := h.chunkSz * s.sparseBlkSz % 2 ^ 32
    match dataSzOf h chunkDataLen with
    | none => none
    | some dataSz =>
      let s' := { s with
        chunkOffset := (s.chunkOffset + chunkDataLen) % 2 ^ 64
        leftChunkNum := s.leftChunkNum + 1 }
      let q' : ChunkData := ⟨q.head, (q.headSz + 12) % 2 ^ 32, dataSz, s.chunkOffset⟩
      if dataSz ≠ 0 then some (s', q') else chunkDataLoop n s' q'

/-- `optimus_sparse_get_chunk_data`. After a burn `leftChunkNum` counts the chunks handed out. -/
def sparseGetChunkData : Option (SimgState × ChunkData) :=
  chunkDataLoop (s.backChunkNum - s.leftChunkNum) s
    (if s.leftChunkNum = 0 then ⟨0, 28, 0, 0⟩ else ⟨28 + 12 * s.leftChunkNum, 0, 0, 0⟩)

/-- `OPTIMUS_SHA1SUM_BUFFER_LEN`. -/
def sha1sumBufferLen : ℕ := 2 ^ 23

/-- The loop that reads the data of a chunk in pieces. -/
def readMedia : ℕ → ℕ → ℕ → List UInt8
  | 0, _, _ => []
  | fuel + 1, len, offset =>
    if len = 0 then []
    else
      let n := if sha1sumBufferLen < len then sha1sumBufferLen else len
      load media offset n ++ readMedia fuel (len - n) (offset + n)

/-- The loop of `optimus_sha1sum_verify_partition` over a sparse image: what goes into the checksum,
and `leftLen` in the end. -/
def verifyLoop : ℕ → SimgState → ℕ → List UInt8 → Option (List UInt8 × ℕ)
  | 0, _, _, _ => none
  | fuel + 1, s, leftLen, stream =>
    if leftLen = 0 then some (stream, leftLen)
    else
      match sparseGetChunkData s with
      | none => none
      | some (s', q) =>
        let stream' := stream ++
          (load s'.area q.head q.headSz ++ readMedia media q.dataSz q.dataSz q.dataOffset)
        -- the two sizes are added as 32-bit numbers
        let leftLen' := (leftLen + (2 ^ 64 - (q.headSz + q.dataSz) % 2 ^ 32)) % 2 ^ 64
        if leftLen' ≠ 0 ∧ q.headSz = 0 then some (stream', leftLen')
        else verifyLoop fuel s' leftLen' stream'

/-- `optimus_sha1sum_verify_partition` for a sparse image. Every round but the last hands out a
chunk, or the file header alone. -/
def sha1sumVerifyPartition (verifyLen : ℕ) : Option (List UInt8 × ℕ) :=
  if sparseBackInfoProbe s then verifyLoop media (s.backChunkNum + 2) s verifyLen [] else none

end

/-! ## Reading back -/

theorem readMedia_eq (media : ℕ → UInt8) (fuel len offset : ℕ) (h : len ≤ fuel) :
    readMedia media fuel len offset = load media offset len := by
  induction fuel generalizing len offset with
  | zero =>
    rw [Nat.le_zero.mp h]
    rfl
  | succ fuel ih =>
    rw [readMedia]
    split
    · next h0 =>
      rw [h0]
      rfl
    · next h0 =>
      obtain ⟨n, hn⟩ : ∃ n, n = if sha1sumBufferLen < len then sha1sumBufferLen else len := ⟨_, rfl⟩
      have hpos : 0 < n ∧ n ≤ len := by
        rw [sha1sumBufferLen] at hn
        split at hn <;> omega
      simp only [← hn]
      rw [ih _ _ (by omega), load_append, Nat.add_sub_cancel' hpos.2]

/-- The burn has left the headers of the image in the backup area. -/
structure Backed (img : SparseImage) (s : SimgState) : Prop where
  blkSz : s.sparseBlkSz = img.blkSz
  backed : s.backChunkNum = img.chunks.length
  area : Contains s.area 0 (img.header ++ img.chunks.flatMap Chunk.header)

/-- The media holds the given bytes of the image. -/
def OnMedia (img : SparseImage) (media : ℕ → UInt8) : Prop :=
  ∀ i b, img.expanded[i]? = some (some b) → media i = b

/-- The parser when the chunks `pre` have been handed out. -/
def SimgState.seek (s : SimgState) (blkSz : ℕ) (pre : List Chunk) : SimgState :=
  { s with
    leftChunkNum := pre.length
    chunkOffset := (pre.flatMap (Chunk.expand blkSz)).length }

variable {img : SparseImage} {s : SimgState} {media : ℕ → UInt8} {pre cs : List Chunk} {c : Chunk}
  {post : List Chunk} {blkSz : ℕ} {lead : List UInt8} {env : BurnEnv} {media₀ : ℕ → UInt8}

/-- Some headers in a row. -/
theorem Backed.load_headers (hs : Backed img s) (hchunks : img.chunks = pre ++ (cs ++ post)) :
    load s.area (28 + 12 * pre.length) (12 * cs.length) = cs.flatMap Chunk.header := by
  have harea := hs.area
  simp only [hchunks, flatMap_append, contains_append, img.length_header, length_flatMap_header] at harea
  have hload := harea.2.2.1.load_eq
  rwa [length_flatMap_header] at hload

theorem Backed.load_fileHeader (hs : Backed img s) : load s.area 0 28 = img.header := by
  have hload := (contains_append.mp hs.area).1.load_eq
  rwa [img.length_header] at hload

theorem Backed.probe (hs : Backed img s) (hleft : s.leftChunkNum = 0) :
    sparseBackInfoProbe s = true := by
  rw [sparseBackInfoProbe, if_neg (by simp [hleft]), hs.load_fileHeader, simgProbe]
  have h0 : img.header.take 4 = leBytes 4 sparseHeaderMagic := by simp [SparseImage.header]
  have h4 : (img.header.drop 4).take 2 = leBytes 2 1 := by simp [SparseImage.header]
  have h8 : (img.header.drop 8).take 2 = leBytes 2 28 := by
    simp [SparseImage.header, drop_append, drop_eq_nil_of_le]
  have h10 : (img.header.drop 10).take 2 = leBytes 2 12 := by
    simp [SparseImage.header, drop_append, drop_eq_nil_of_le]
  rw [h0, h4, h8, h10, img.length_header]
  decide

/-- The data behind a header is the first thing on the media at the place of the chunk. -/
theorem expand_eq_payload_append (hblk : 512 ∣ blkSz) (hpos : 0 < c.blocks * blkSz) :
    c.payload = [] ∨ ∃ more, c.expand blkSz = c.payload.map some ++ more := by
  cases hb : c.body with
  | dontCare => exact .inl (by rw [Chunk.payload, hb])
  | raw data => exact .inr ⟨[], by simp [Chunk.payload, Chunk.expand, hb]⟩
  | fill value =>
    right
    have h4 : 4 ≤ c.blocks * blkSz := Nat.le_trans (by decide) (Nat.le_of_dvd hpos (c.dvd_size hblk))
    have hsplit := fillBytes_add value (c.blocks * blkSz - 4) (Nat.dvd_refl 4)
    rw [Nat.add_sub_cancel' h4] at hsplit
    simp only [Chunk.payload, Chunk.expand, hb]
    rw [hsplit]
    simp [fillBytes]

theorem OnMedia.load_payload (hm : OnMedia img media)
    (hpos : ∀ k ∈ img.chunks, 0 < k.blocks * img.blkSz) (hchunks : img.chunks = pre ++ c :: cs) :
    load media (pre.flatMap (Chunk.expand img.blkSz)).length c.payload.length = c.payload := by
  refine Contains.load_eq ?_
  have hmem : c ∈ img.chunks := by rw [hchunks]; simp
  rcases expand_eq_payload_append img.blkSz_dvd (hpos c hmem) with hnil | ⟨more, hmore⟩
  · rw [hnil]
    trivial
  rw [contains_iff]
  intro i hi
  refine hm _ _ ?_
  rw [SparseImage.expanded, hchunks, flatMap_append, flatMap_cons, hmore,
    append_assoc, getElem?_append_right (Nat.le_add_right _ _),
    getElem?_append_left (by simpa using hi)]
  simp

/-! ## Groups of chunks

One call of `optimus_sparse_get_chunk_data` hands out the chunks up to the first one with data. -/

/-- The chunks that the next call hands out. -/
def group : List Chunk → List Chunk
  | [] => []
  | c :: cs => if c.payload = [] then c :: group cs else [c]

/-- The chunks behind them. -/
def afterGroup : List Chunk → List Chunk
  | [] => []
  | c :: cs => if c.payload = [] then afterGroup cs else cs

/-- The data that the next call hands out. -/
def groupData : List Chunk → List UInt8
  | [] => []
  | c :: cs => if c.payload = [] then groupData cs else c.payload

section

variable (cs)

theorem group_append_afterGroup : group cs ++ afterGroup cs = cs := by
  induction cs with
  | nil => rfl
  | cons c cs ih =>
    rw [group, afterGroup]
    split
    · rw [cons_append, ih]
    · rfl

/-- The headers of a group and its data are the chunks of the group. -/
theorem flatMap_group : (group cs).flatMap Chunk.header ++ groupData cs =
    (group cs).flatMap Chunk.encode := by
  induction cs with
  | nil => rfl
  | cons c cs ih =>
    rw [group, groupData]
    split
    · next hnil =>
      rw [flatMap_cons, flatMap_cons, append_assoc, ih, Chunk.encode, hnil, append_nil]
    · rw [flatMap_singleton, flatMap_singleton, Chunk.encode]

theorem length_flatMap_encode :
    (cs.flatMap Chunk.encode).length = 12 * (group cs).length + (groupData cs).length +
      ((afterGroup cs).flatMap Chunk.encode).length := by
  have hgroup := congrArg length (flatMap_group cs)
  rw [length_append, length_flatMap_header] at hgroup
  have hsplit := congrArg (fun l => (l.flatMap Chunk.encode).length) (group_append_afterGroup cs)
  simp only [flatMap_append, length_append] at hsplit
  omega

theorem length_group_add : (group cs).length + (afterGroup cs).length = cs.length := by
  rw [← length_append, group_append_afterGroup]

end

theorem group_ne_nil (c : Chunk) (cs : List Chunk) : group (c :: cs) ≠ [] := by
  rw [group]
  split <;> simp

theorem dataSzOf_eq (hwf : c.WellFormed blkSz) :
    dataSzOf ⟨c.chunkType, c.blocks, c.totalSz⟩ (c.blocks * blkSz) = some c.payload.length := by
  cases hb : c.body with
  | raw data =>
    simp [dataSzOf, Chunk.chunkType, Chunk.totalSz, Chunk.payload, hb, hwf.raw data hb]
  | fill value =>
    simp [dataSzOf, Chunk.chunkType, Chunk.totalSz, Chunk.payload, hb, chunkTypeRaw,
      chunkTypeFill, chunkTypeDontCare]
  | dontCare =>
    simp [dataSzOf, Chunk.chunkType, Chunk.totalSz, Chunk.payload, hb, chunkTypeRaw, chunkTypeDontCare]

/-- One round of the loop over the backed up headers. -/
theorem chunkDataLoop_cons (hs : Backed img s) (hfits : img.Fits)
    (hchunks : img.chunks = pre ++ c :: cs) {q q' : ChunkData} (hq : q.headSz + 12 < 2 ^ 32) (n : ℕ)
    (hq' : q' = ⟨q.head, q.headSz + 12, c.payload.length, (pre.flatMap (Chunk.expand img.blkSz)).length⟩) :
    chunkDataLoop (n + 1) (s.seek img.blkSz pre) q =
      if c.payload.length ≠ 0 then some (s.seek img.blkSz (pre ++ [c]), q')
      else chunkDataLoop n (s.seek img.blkSz (pre ++ [c])) q' := by
  have hwf := img.wellFormed c (by rw [hchunks]; simp)
  have hread : ChunkHeader.read (load s.area (28 + 12 * pre.length) 12) =
    ⟨c.chunkType, c.blocks, c.totalSz⟩ := by
    have hload := hs.load_headers (show img.chunks = pre ++ ([c] ++ cs) from hchunks)
    rw [length_singleton, flatMap_singleton] at hload
    have h := ChunkHeader.read_header hwf []
    rw [append_nil] at h
    rw [hload, h]
  -- the offset stays within the image
  have hoffset : ((pre.flatMap (Chunk.expand img.blkSz)).length + c.blocks * img.blkSz) % 2 ^ 64
      = ((pre ++ [c]).flatMap (Chunk.expand img.blkSz)).length := by
    have hlen := hfits.sectors
    rw [SparseImage.expanded, hchunks, flatMap_append, flatMap_cons, length_append,
      length_append, Chunk.length_expand hwf img.blkSz_dvd] at hlen
    rw [flatMap_append, flatMap_singleton, length_append, Chunk.length_expand hwf img.blkSz_dvd]
    exact Nat.mod_eq_of_lt (by omega)
  have hseek : s.seek img.blkSz (pre ++ [c]) = { s with
          chunkOffset := ((pre.flatMap (Chunk.expand img.blkSz)).length + c.blocks * img.blkSz) % 2 ^ 64
          leftChunkNum := pre.length + 1 } := by
    rw [SimgState.seek, hoffset, length_append, length_singleton]
  rw [chunkDataLoop, hseek, hq']
  simp only [SimgState.seek, hread, hs.blkSz, Nat.mod_eq_of_lt hwf.size_lt, dataSzOf_eq hwf,
    Nat.mod_eq_of_lt hq]

/-- How often the size of a group does not fit 32 bits; `h` is the size of what is handed out in
front of the first group. -/
def wraps : ℕ → List Chunk → ℕ
  | _, [] => 0
  | h, c :: cs =>
    if c.payload = [] then wraps (h + 12) cs
    else (if 2 ^ 32 ≤ h + 12 + c.payload.length then 1 else 0) + wraps 0 cs

/-- The size of every group fits 32 bits: the headers of the chunks without data together with the
next chunk that has some. -/
def GroupsFit : ℕ → List Chunk → Prop
  | _, [] => True
  | h, c :: cs =>
    if c.payload = [] then GroupsFit (h + 12) cs
    else h + 12 + c.payload.length < 2 ^ 32 ∧ GroupsFit 0 cs

theorem wraps_eq_zero_iff (h : ℕ) (cs : List Chunk) : wraps h cs = 0 ↔ GroupsFit h cs := by
  induction cs generalizing h with
  | nil => exact ⟨fun _ => trivial, fun _ => rfl⟩
  | cons c cs ih =>
    rw [wraps, GroupsFit]
    split
    · exact ih (h + 12)
    · rw [← ih 0]
      split <;> omega

theorem wraps_group (h : ℕ) (cs : List Chunk) : wraps h cs = wraps h (group cs) + wraps 0
    (afterGroup cs) := by
  induction cs generalizing h with
  | nil => rfl
  | cons c cs ih =>
    rw [wraps, group, afterGroup]
    split
    · next hnil => rw [ih, wraps, if_pos hnil]
    · next hne => rw [wraps, if_neg hne]; rfl

/-- What is lost of the size of a group in 32 bits. -/
theorem size_group {h : ℕ} (cs : List Chunk) (hhead : h + 12 * (group cs).length < 2 ^ 32)
    (hdata : (groupData cs).length < 2 ^ 32) :
    (h + 12 * (group cs).length + (groupData cs).length) % 2 ^ 32 + 2 ^ 32 * wraps h (group cs) =
      h + 12 * (group cs).length + (groupData cs).length := by
  induction cs generalizing h with
  | nil => exact Nat.mod_eq_of_lt hhead
  | cons c cs ih =>
    by_cases hnil : c.payload = []
    · simp only [group, groupData, wraps, if_pos hnil, length_cons] at hhead hdata ⊢
      have hrest := ih (h := h + 12) (by omega) hdata
      omega
    · simp only [group, groupData, wraps, if_neg hnil, length_singleton] at hhead hdata ⊢
      split <;> omega

theorem length_groupData_lt (hwf : ∀ c ∈ cs, c.totalSz < 2 ^ 32) :
    (groupData cs).length < 2 ^ 32 := by
  induction cs with
  | nil => exact by decide
  | cons c cs ih =>
    rw [groupData]
    split
    · exact ih (forall_mem_cons.mp hwf).2
    · have h := hwf c mem_cons_self
      rw [Chunk.totalSz] at h
      omega

section

variable (hs : Backed img s) (hfits : img.Fits) (hm : OnMedia img media)
  (hpos : ∀ k ∈ img.chunks, 0 < k.blocks * img.blkSz)

include hs hfits hm hpos

/-- The loop hands out the next group. -/
theorem chunkDataLoop_spec (cs pre : List Chunk)
    (hchunks : img.chunks = pre ++ cs) (q : ChunkData) (hdata : q.dataSz = 0)
    (hq : q.headSz + 12 * cs.length < 2 ^ 32) :
    ∃ q', chunkDataLoop cs.length (s.seek img.blkSz pre) q = some
      (s.seek img.blkSz (pre ++ group cs), q') ∧ q'.head = q.head ∧ q'.headSz = q.headSz + 12 *
      (group cs).length ∧
      q'.dataSz = (groupData cs).length ∧ load media q'.dataOffset q'.dataSz = groupData cs := by
  induction cs generalizing pre q with
  | nil => exact ⟨q, by rw [group, append_nil]; rfl, rfl, rfl, hdata, by rw [hdata]; rfl⟩
  | cons c cs ih =>
    rw [length_cons] at hq
    rw [length_cons, chunkDataLoop_cons hs hfits hchunks (by omega) _ rfl, group, groupData]
    by_cases hnil : c.payload = []
    · rw [if_neg (by simp [hnil]), if_pos hnil, if_pos hnil]
      obtain ⟨q', hloop, hhead, hsize, hrest⟩ :=
          ih (pre ++ [c]) (by rw [hchunks, append_assoc, singleton_append])
        ⟨q.head, q.headSz + 12, c.payload.length, _⟩ (by simp [hnil])
        (show q.headSz + 12 + 12 * cs.length < 2 ^ 32 by omega)
      refine ⟨q', ?_, hhead, ?_, hrest⟩
      · rw [hloop, append_assoc, singleton_append]
      · rw [hsize, length_cons]
        show q.headSz + 12 + 12 * _ = _
        omega
    · rw [if_pos (by simpa using hnil), if_neg hnil, if_neg hnil]
      exact ⟨_, rfl, rfl, rfl, rfl, hm.load_payload hpos hchunks⟩

/-- A call of `optimus_sparse_get_chunk_data`: it hands out the file header in front of the first
group, then the headers and the data of the next group. -/
theorem sparseGetChunkData_spec (hchunks : img.chunks = pre ++ cs)
    (hlead : lead = if pre = [] then img.header else []) :
    ∃ q, sparseGetChunkData (s.seek img.blkSz pre) = some (s.seek img.blkSz (pre ++ group cs), q) ∧
      q.headSz = lead.length + 12 * (group cs).length ∧ q.dataSz = (groupData cs).length ∧
      load s.area q.head q.headSz ++ readMedia media q.dataSz q.dataSz q.dataOffset
        = lead ++ (group cs).flatMap Chunk.encode := by
  have hcount : img.chunks.length = pre.length + cs.length := by rw [hchunks, length_append]
  have hmax := hfits.headers
  have hgroup : img.chunks = pre ++ (group cs ++ afterGroup cs) := by
    rw [group_append_afterGroup, hchunks]
  have hfuel : (s.seek img.blkSz pre).backChunkNum - (s.seek img.blkSz pre).leftChunkNum = cs.length := by
    show s.backChunkNum - pre.length = cs.length
    rw [hs.backed]
    omega
  -- the header that the call starts from
  obtain ⟨q₀, hq₀, hsize₀, hdata₀, hload₀, hhead₀⟩ : ∃ q₀ : ChunkData,
      q₀ = (if pre.length = 0 then ⟨0, 28, 0, 0⟩ else ⟨28 + 12 * pre.length, 0, 0, 0⟩) ∧
      q₀.headSz = lead.length ∧ q₀.dataSz = 0 ∧ load s.area q₀.head lead.length = lead ∧
      q₀.head + lead.length = 28 + 12 * pre.length := by
    cases pre with
    | nil =>
      rw [hlead, if_pos rfl, img.length_header]
      exact ⟨_, rfl, rfl, rfl, hs.load_fileHeader, rfl⟩
    | cons k pre =>
      rw [hlead]
      exact ⟨_, rfl, rfl, rfl, rfl, rfl⟩
  obtain ⟨q, hloop, hhead, hsize, hdataSz, hdata⟩ :=
    chunkDataLoop_spec hs hfits hm hpos cs pre hchunks q₀ hdata₀ (by omega)
  rw [hsize₀] at hsize
  rw [sparseGetChunkData, hfuel]
  refine ⟨q, by rw [← hloop, hq₀]; rfl, hsize, hdataSz, ?_⟩
  rw [readMedia_eq _ _ _ _ le_rfl, hdata, hhead, hsize, ← load_append, hload₀, hhead₀,
    hs.load_headers hgroup, append_assoc, flatMap_group]

/-! ## The loop over the groups -/

/-- One round of the verification. What the loop thinks is left is too much by `2 ^ 32` for each
group whose size wraps around. -/
theorem verifyLoop_step (hchunks : img.chunks = pre ++ cs)
    (hlead : lead = if pre = [] then img.header else []) (fuel : ℕ) {k : ℕ}
    (hlt : (lead ++ cs.flatMap Chunk.encode).length + 2 ^ 32 * k < 2 ^ 64)
    (hne : (lead ++ cs.flatMap Chunk.encode).length ≠ 0) (stream : List UInt8) {left : ℕ}
    (hleft : left = ((afterGroup cs).flatMap Chunk.encode).length + 2 ^ 32 *
      (k + wraps lead.length (group cs))) :
    left < 2 ^ 64 ∧
    verifyLoop media (fuel + 1) (s.seek img.blkSz pre)
      ((lead ++ cs.flatMap Chunk.encode).length + 2 ^ 32 * k) stream = verifyLoop media fuel
        (s.seek img.blkSz (pre ++ group cs)) left
        (stream ++ (lead ++ (group cs).flatMap Chunk.encode)) := by
  obtain ⟨q, hget, hhead, hdata, hbytes⟩ := sparseGetChunkData_spec hs hfits hm hpos hchunks hlead
  have hsize : (lead ++ cs.flatMap Chunk.encode).length
      = q.headSz + q.dataSz + ((afterGroup cs).flatMap Chunk.encode).length := by
    rw [length_append, length_flatMap_encode cs]
    omega
  have hheadLt : q.headSz < 2 ^ 31 := by
    have hmax := hfits.headers
    have hcount := length_group_add cs
    have hleadLen : lead.length ≤ 28 := by
      rw [hlead]
      split <;> simp
    rw [hchunks, length_append] at hmax
    omega
  have hheadPos : q.headSz ≠ 0 := by
    cases cs with
    | nil =>
      rw [flatMap_nil, append_nil] at hne
      omega
    | cons c cs =>
      have := length_pos_iff.mpr (group_ne_nil c cs)
      omega
  have hwraps := size_group cs (h := lead.length) (by omega)
    (length_groupData_lt fun c hc => (img.wellFormed c (by rw [hchunks]; simp [hc])).total_lt)
  have hnext : ((lead ++ cs.flatMap Chunk.encode).length + 2 ^ 32 * k +
      (2 ^ 64 - (q.headSz + q.dataSz) % 2 ^ 32)) % 2 ^ 64 = left := by omega
  refine ⟨hnext ▸ Nat.mod_lt _ (by decide), ?_⟩
  rw [verifyLoop, if_neg (by omega), hget]
  simp only [hnext]
  rw [if_neg (fun h => hheadPos h.2)]
  exact congrArg (fun l => verifyLoop media fuel _ _ (stream ++ l)) hbytes

/-- When all chunks have been handed out, the loop ends; it gives up if it thinks that there is
more. -/
theorem verifyLoop_done (hne : img.chunks ≠ []) (fuel : ℕ) {n : ℕ} (hn : n < 2 ^ 64)
    (stream : List UInt8) : verifyLoop media (fuel + 1) (s.seek img.blkSz img.chunks) n stream =
    some (stream, n) := by
  obtain ⟨q, hget, hhead, hdata, hbytes⟩ := sparseGetChunkData_spec hs hfits hm hpos
    (append_nil img.chunks).symm (if_neg hne).symm
  rw [show (group []).length = 0 from rfl, length_nil] at hhead
  rw [show (groupData []).length = 0 from rfl] at hdata
  rw [verifyLoop]
  split
  · rfl
  next hn0 =>
  have hleft : (n + (2 ^ 64 - (q.headSz + q.dataSz) % 2 ^ 32)) % 2 ^ 64 = n := by
    omega
  rw [hget]
  simp only [hleft]
  rw [if_pos ⟨hn0, hhead⟩]
  refine congrArg (fun l => some (l, n)) ?_
  show stream ++ (load s.area q.head q.headSz ++ _) = stream
  rw [hbytes]
  simp [group]

/-- The rounds behind the first one. -/
theorem verifyLoop_spec (fuel : ℕ) (pre cs : List Chunk)
    (hchunks : img.chunks = pre ++ cs) (hpre : pre ≠ []) (hfuel : cs.length + 1 ≤ fuel) (k : ℕ)
    (hlt : (cs.flatMap Chunk.encode).length + 2 ^ 32 * k < 2 ^ 64) (stream : List UInt8) :
    verifyLoop media fuel (s.seek img.blkSz pre) ((cs.flatMap Chunk.encode).length + 2 ^ 32 * k)
      stream = some (stream ++ cs.flatMap Chunk.encode, 2 ^ 32 * (k + wraps 0 cs)) := by
  induction fuel generalizing pre cs k stream with
  | zero => omega
  | succ fuel ih =>
    cases cs with
    | nil =>
      rw [append_nil] at hchunks
      rw [flatMap_nil, length_nil, zero_add] at hlt ⊢
      rw [← hchunks, verifyLoop_done hs hfits hm hpos (hchunks ▸ hpre) fuel hlt, append_nil]
      rfl
    | cons c cs =>
      have hlead : ([] : List UInt8) = if pre = [] then img.header else [] := (if_neg hpre).symm
      obtain ⟨hnext, hround⟩ := verifyLoop_step hs hfits hm hpos hchunks hlead fuel hlt
        (by simp [Chunk.encode, Chunk.header]) stream rfl
      rw [nil_append] at hround
      have hsplit := group_append_afterGroup (c :: cs)
      have hlen := length_group_add (c :: cs)
      have := length_pos_iff.mpr (group_ne_nil c cs)
      rw [hround, ih (pre ++ group (c :: cs)) (afterGroup (c :: cs))
        (by rw [append_assoc, hsplit, hchunks]) (by simp [hpre]) (by omega) _ hnext,
        wraps_group 0 (c :: cs), nil_append, append_assoc, ← flatMap_append, hsplit, add_assoc, length_nil]

end

/-! ## The whole verification -/

theorem length_flatMap_encode_le (hwf : ∀ c ∈ cs, c.totalSz < 2 ^ 32) :
    (cs.flatMap Chunk.encode).length ≤ cs.length * 2 ^ 32 := by
  induction cs with
  | nil => exact Nat.zero_le _
  | cons c cs ih =>
    have hc := hwf c mem_cons_self
    have hrest := ih (forall_mem_cons.mp hwf).2
    rw [flatMap_cons, length_append, c.length_encode, length_cons]
    omega

theorem SparseImage.length_encode_lt (hfits : img.Fits) : img.encode.length < 2 ^ 64 := by
  have hle := length_flatMap_encode_le (fun c hc => (img.wellFormed c hc).total_lt)
  have hmax := hfits.headers
  rw [encode, length_append, img.length_header]
  omega

theorem SimgState.seek_nil (hleft : s.leftChunkNum = 0) (hoff : s.chunkOffset = 0) (blkSz : ℕ) :
    s.seek blkSz [] = s := by
  obtain ⟨_, _, _, _, _, _, _, _, _⟩ := s
  cases hleft
  cases hoff
  rfl

/-- The stream is always that of the image; the bytes left are those of the groups whose sizes wrap
around. -/
theorem sha1sumVerifyPartition_eq (hs : Backed img s) (hleft : s.leftChunkNum = 0)
    (hoff : s.chunkOffset = 0) (hfits : img.Fits) (hm : OnMedia img media)
    (hpos : ∀ k ∈ img.chunks, 0 < k.blocks * img.blkSz) :
    sha1sumVerifyPartition media s img.encode.length = some
      (img.encode, 2 ^ 32 * wraps 28 img.chunks) := by
  obtain ⟨hnext, hround⟩ := verifyLoop_step hs hfits hm hpos (nil_append img.chunks).symm (if_pos rfl).symm
    (s.backChunkNum + 1) (k := 0) (SparseImage.length_encode_lt hfits) (by simp) [] rfl
  simp only [SimgState.seek_nil hleft hoff, mul_zero, add_zero, zero_add, nil_append,
    img.length_header] at hround hnext
  rw [sha1sumVerifyPartition, if_pos (hs.probe hleft), SparseImage.encode, hround,
    wraps_group 28 img.chunks, hs.backed]
  rcases hcs : img.chunks with _ | ⟨c, cs⟩
  · rfl
  have hsplit := group_append_afterGroup (c :: cs)
  have hlen := length_group_add (c :: cs)
  rw [hcs] at hnext
  rw [verifyLoop_spec hs hfits hm hpos _ (group (c :: cs)) (afterGroup (c :: cs))
    (by rw [hsplit, hcs]) (group_ne_nil c cs) (by omega) _ hnext, append_assoc, ← flatMap_append, hsplit]

/-- A given byte is written, or the device is known to hold it. -/
theorem written_of_expanded (env : BurnEnv) (hblk : 512 ∣ blkSz) (cs : List Chunk)
    (hwf : ∀ c ∈ cs, c.WellFormed blkSz) {i : ℕ} {b : UInt8}
    (hi : (cs.flatMap (Chunk.expand blkSz))[i]? = some (some b)) :
    (cs.flatMap (Chunk.written env blkSz))[i]? = some none ∨
      (cs.flatMap (Chunk.written env blkSz))[i]? = some (some b) := by
  induction cs generalizing i with
  | nil => cases hi
  | cons c cs ih =>
    have hwfc := hwf c mem_cons_self
    have hlen := Chunk.length_expand hwfc hblk
    have hlen' := Chunk.length_written env hwfc hblk
    rw [flatMap_cons] at hi ⊢
    rcases lt_or_ge i (c.blocks * blkSz) with hlt | hge
    · rw [getElem?_append_left (by omega)] at hi ⊢
      rw [Chunk.written]
      split
      · split
        · exact .inr hi
        · exact .inl (getElem?_replicate_of_lt hlt)
      · exact .inr hi
    · rw [getElem?_append_right (by omega), hlen] at hi
      rw [getElem?_append_right (by omega), hlen']
      exact ih (forall_mem_cons.mp hwf).2 hi

/-- What is on the media after a burn, given that the device holds what has not been written. -/
theorem onMedia_of_writes {ws : List Write} (hws : WritesExactly ws (img.written env))
    (hskip : ∀ i b, img.expanded[i]? = some (some b) → (img.written env)[i]? = some none → media₀ i = b) :
    OnMedia img (applyWrites media₀ (ws.map Write.toPair)) := by
  intro i b hi
  rcases written_of_expanded env img.blkSz_dvd img.chunks img.wellFormed hi with hnone | hsome
  · rw [Exact.applyWrites_of_not_given hws media₀]
    · exact hskip i b hi hnone
    · intro b' hb'
      rw [SparseImage.written, hnone] at hb'
      cases hb'
  · exact Exact.applyWrites_eq hws media₀ hsome

section

variable (img : SparseImage) (env : BurnEnv) (s : SimgState) (pieces : List (List UInt8)) (d : Download)
  (media₀ : ℕ → UInt8) (hfits : img.Fits) (hpos : ∀ c ∈ img.chunks, 0 < c.blocks * img.blkSz)
  (hs : FillOk s)
  (hpieces : pieces.flatten = img.encode) (hlen : ∀ piece ∈ pieces, piece.length + 65536 ≤ 2 ^ 32)
  (hburn : downloadPieces env (Download.start img.encode s) pieces = some d)
  (hskip : ∀ i b, img.expanded[i]? = some (some b) → (img.written env)[i]? = some none → media₀ i = b)

include hfits hpos hs hpieces hlen hburn hskip

/-- The verification after a burn. -/
theorem verify_of_burn :
    sha1sumVerifyPartition (applyWrites media₀ (d.writes.map Write.toPair)) d.st img.encode.length
      = some (img.encode, 2 ^ 32 * wraps 28 img.chunks) := by
  obtain ⟨hgo, hstop⟩ := burn_spec env hfits hs hpieces hlen
  have hgood : GoodCuts img 0 pieces := by
    by_contra hbad
    rw [hstop hbad] at hburn
    cases hburn
  obtain ⟨d', p, n, hrun, hbetween⟩ := hgo hgood
  obtain rfl : d' = d := by
    rw [hburn] at hrun
    exact (Option.some.inj hrun).symm
  obtain ⟨hrep, hleft, -⟩ := hbetween.result
  exact sha1sumVerifyPartition_eq ⟨hrep.blkSz, hrep.backed, hrep.area⟩ hleft hrep.chunkOffset hfits
    (onMedia_of_writes hrep.writes hskip) hpos

/-- After a burn, the verification puts the image together again and has nothing left in the end,
exactly if the size of every group fits 32 bits. -/
theorem verified_iff_groupsFit :
    sha1sumVerifyPartition (applyWrites media₀ (d.writes.map Write.toPair)) d.st img.encode.length
        = some (img.encode, 0) ↔ GroupsFit 28 img.chunks := by
  rw [verify_of_burn img env s pieces d media₀ hfits hpos hs hpieces hlen hburn hskip,
    ← wraps_eq_zero_iff, Option.some.injEq, Prod.mk.injEq]
  constructor
  · rintro ⟨-, h⟩
    omega
  · intro h
    exact ⟨rfl, by rw [h, mul_zero]⟩

end

/-- Where everything is written, nothing is asked of the device. -/
theorem skip_plainDevice (img : SparseImage) (media₀ : ℕ → UInt8) (i : ℕ) (b : UInt8)
    (hi : img.expanded[i]? = some (some b)) (hnone : (img.written plainDevice)[i]? = some none) :
    media₀ i = b := by
  rw [img.written_eq_expanded needFill_plainDevice, hi] at hnone
  cases hnone

/-- The small image is verified after its burn. -/
theorem verified_iff_groupsFit_small :
    ∃ d, downloadPieces plainDevice (Download.start smallImage.encode freshState)
        [smallImage.encode.take 100, smallImage.encode.drop 100] = some d ∧
      sha1sumVerifyPartition (applyWrites (fun _ => 0) (d.writes.map Write.toPair)) d.st
        smallImage.encode.length = some (smallImage.encode, 0) := by
  have hgood : GoodCuts smallImage 0 [smallImage.encode.take 100, smallImage.encode.drop 100] := by
    decide +kernel
  have hlen : ∀ piece ∈ [smallImage.encode.take 100, smallImage.encode.drop 100],
      piece.length + 65536 ≤ 2 ^ 32 := by decide +kernel
  obtain ⟨d, -, -, hburn, -⟩ := (burn_spec plainDevice fits_smallImage fillOk_freshState
      (by simp) hlen).1 hgood
  exact ⟨d, hburn, (verified_iff_groupsFit smallImage plainDevice freshState _ d (fun _ => 0)
    fits_smallImage (by decide) fillOk_freshState (by simp) hlen hburn
    (skip_plainDevice smallImage _)).mpr ((wraps_eq_zero_iff _ _).mp (by decide +kernel))⟩

/-! ### A group that does not fit -/

/-- A block that is not given. -/
def holeChunk : Chunk := ⟨0, 1, .dontCare⟩

/-- Raw data of one block less than 4 GiB. -/
def hugeChunk : Chunk := ⟨0, 8388607, .raw (List.replicate 4294966784 0)⟩

theorem length_payload_hugeChunk : hugeChunk.payload.length = 4294966784 := length_replicate

theorem mem_wrapChunks (hc : c ∈ replicate 42 holeChunk ++ [hugeChunk]) :
    c = holeChunk ∨ c = hugeChunk := by
  rcases mem_append.mp hc with hc | hc
  · exact .inl (eq_of_mem_replicate hc)
  · exact .inr (mem_singleton.mp hc)

/-- 42 blocks that are not given, and then almost 4 GiB of data. -/
def wrapImage : SparseImage where
  minorVersion := 0
  blkSz := 512
  totalBlks := 8388649
  imageChecksum := 0
  chunks := List.replicate 42 holeChunk ++ [hugeChunk]
  blkSz_dvd := dvd_sector
  blkSz_lt := sector_lt
  chunks_lt := by decide
  wellFormed := by
    intro c hc
    rcases mem_wrapChunks hc with rfl | rfl
    · constructor <;> simp [holeChunk, Chunk.totalSz, Chunk.payload]
    have hlen := length_payload_hugeChunk
    refine ⟨by decide, by decide, by decide, by rw [Chunk.totalSz]; omega, ?_, ?_⟩
    · intro data hb
      rw [← ChunkBody.raw.inj hb]
      exact length_replicate
    · intro value hb
      cases hb

theorem chunks_wrapImage : wrapImage.chunks = replicate 42 holeChunk ++ [hugeChunk] := rfl

theorem length_encode_wrapImage : wrapImage.encode.length = 4294967328 := by
  have hholes : ((replicate 42 holeChunk).flatMap Chunk.encode).length = 504 := by decide +kernel
  rw [SparseImage.encode, length_append, SparseImage.length_header, chunks_wrapImage,
    flatMap_append, length_append, hholes, flatMap_singleton, Chunk.length_encode,
    Chunk.totalSz, length_payload_hugeChunk]

theorem fits_wrapImage : wrapImage.Fits := by
  refine ⟨by decide, ?_⟩
  rw [SparseImage.length_expanded]
  decide +kernel

theorem wraps_holeChunks (h n : ℕ) (cs : List Chunk) :
    wraps h (replicate n holeChunk ++ cs) = wraps (h + 12 * n) cs := by
  induction n generalizing h with
  | zero => rfl
  | succ n ih =>
    rw [replicate_succ, cons_append, wraps,
      if_pos (show holeChunk.payload = [] from rfl), ih, Nat.mul_add, Nat.add_assoc,
      Nat.add_comm 12]

/-- Without fill chunks, and with few sectors, every place is good. -/
theorem goodEnd_wrapImage (flash n : ℕ) : GoodEnd wrapImage flash n := by
  constructor
  · refine not_cutsFillValue_of_no_fill _ (fun c hc => ?_) n
    rcases mem_wrapChunks hc with rfl | rfl <;> rfl
  · refine lt_of_le_of_lt (startedSectors_le_sum _ _ n) (lt_of_lt_of_le ?_ (Nat.le_add_left _ _))
    decide +kernel

/-- The image cut in two. -/
def wrapPieces : List (List UInt8) :=
  [wrapImage.encode.take (2 ^ 31), wrapImage.encode.drop (2 ^ 31)]

theorem length_take_wrapImage : (wrapImage.encode.take (2 ^ 31)).length = 2147483648 := by
  simp only [length_take, length_encode_wrapImage]
  rfl

theorem length_drop_wrapImage : (wrapImage.encode.drop (2 ^ 31)).length = 2147483680 := by
  rw [length_drop, length_encode_wrapImage]
  rfl

/-- The loop adds the 544 bytes of the headers to the size of the data in 32 bits, so that it takes
off `2 ^ 32` bytes too few. -/
theorem not_verified_wrapImage :
    (∀ c ∈ wrapImage.chunks, 1 ≤ c.blocks ∧ c.blocks * wrapImage.blkSz < 2 ^ 32) ∧
      wrapPieces.flatten = wrapImage.encode ∧
      ∃ d, downloadPieces plainDevice (Download.start wrapImage.encode freshState) wrapPieces = some d ∧
        sha1sumVerifyPartition (applyWrites (fun _ => 0) (d.writes.map Write.toPair)) d.st
          wrapImage.encode.length = some (wrapImage.encode, 2 ^ 32) := by
  have hflatten : wrapPieces.flatten = wrapImage.encode := by simp [wrapPieces]
  have htake := length_take_wrapImage
  have hdrop := length_drop_wrapImage
  have hlen : ∀ piece ∈ wrapPieces, piece.length + 65536 ≤ 2 ^ 32 := by
    intro piece hp
    simp only [wrapPieces, mem_cons, not_mem_nil, or_false] at hp
    rcases hp with hp | hp
    · rw [hp, htake]
      decide
    · rw [hp, hdrop]
      decide
  have hgood : GoodCuts wrapImage 0 wrapPieces :=
    ⟨⟨by omega, goodEnd_wrapImage _ _⟩, ⟨by omega, goodEnd_wrapImage _ _⟩, trivial⟩
  obtain ⟨d, -, -, hburn, -⟩ := (burn_spec plainDevice fits_wrapImage fillOk_freshState
      hflatten hlen).1 hgood
  refine ⟨by decide, hflatten, d, hburn, ?_⟩
  rw [verify_of_burn wrapImage _ _ _ _ _ fits_wrapImage (by decide) fillOk_freshState hflatten hlen hburn
    (skip_plainDevice wrapImage _), chunks_wrapImage, wraps_holeChunks, wraps, length_payload_hugeChunk]
  rfl

end UBoot.Burning
