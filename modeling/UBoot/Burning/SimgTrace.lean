import UBoot.Burning.SimgChunk

/-!
# The chunks that a burn handles

The chunks that `optimus_simg_to_media` gets through over any number of calls, each with the place
where its header is backed up and the flash address it is burned at. The data of the image is
arbitrary.

The headers are backed up one behind the other, without a look at the size of the area that is set
aside for them.
-/

namespace UBoot.Burning

open UBoot.Common List

/-- A chunk that is handled: its header, the address of the backup of the header, and
`flashAddrStart`. -/
structure Handling where
  header : ChunkHeader
  backup : ℕ
  flash : ℕ

/-- The chunks handled by `chunkLoop`, also when it fails in the end. -/
def chunkTrace (env : BurnEnv) : ℕ → Cursor → List Handling
  | 0, _ => []
  | left + 1, c =>
    if c.st.notWrBackSz4LongChunk ≠ 0 ∨ c.unParsedBufLen < 12 then []
    else
      match chunkStep env c with
      | .error _ => []
      | .ok c' => ⟨.read c.pChunk, 28 + 12 * c.st.backChunkNum, c.flashAddrStart⟩ :: chunkTrace env left c'

/-- The variables with which `optimus_simg_to_media` comes to the loop over the chunks, if it
does. -/
def simgEntry (s : SimgState) (pkt : List UInt8) (flashAddrInSec : ℕ) : Option Cursor :=
  let notWr := s.notWrBackSz4LongChunk
  let unParsed := sub32 pkt.length s.pktHeadLen
  if notWr ≠ 0 ∧ s.pktHeadLen = 0 then
    if pkt.length ≤ notWr then none
    else some ⟨s.holdBack (sub32 notWr notWr) s.nextFlashAddr4LastLongChunk, pkt.drop notWr,
      sub32 unParsed notWr, flashAddrInSec, [⟨s.nextFlashAddr4LastLongChunk, pkt.take notWr⟩]⟩
  else some ⟨s, pkt.drop s.pktHeadLen, unParsed, flashAddrInSec, []⟩

/-- The chunks handled by a call. -/
def callTrace (env : BurnEnv) (s : SimgState) (pkt : List UInt8) (flashAddrInSec : ℕ) :
    List Handling :=
  match simgEntry s pkt flashAddrInSec with
  | none => []
  | some c => chunkTrace env c.st.leftChunkNum c

/-- The chunks handled while the pieces of an image come in. -/
def downloadTrace (env : BurnEnv) : Download → List (List UInt8) → List Handling
  | _, [] => []
  | d, piece :: pieces =>
    callTrace env d.st (d.tail ++ piece) (d.nextMediaOffset / 512 % 2 ^ 32) ++
      match downloadSparseImage env d piece with
      | none => []
      | some d' => downloadTrace env d' pieces

/-! ### One step -/

/-- The states agree in the number of chunks that are left and backed up, and in the block size. -/
structure SameChunks (s s' : SimgState) : Prop where
  left : s'.leftChunkNum = s.leftChunkNum
  back : s'.backChunkNum = s.backChunkNum
  blk : s'.sparseBlkSz = s.sparseBlkSz

theorem SameChunks.refl (s : SimgState) : SameChunks s s := ⟨rfl, rfl, rfl⟩

theorem prepareFillBuf_sameChunks (s : SimgState) (fillVal len : ℕ) :
    SameChunks s (prepareFillBuf s fillVal len) := by
  rw [prepareFillBuf]
  generalize (if fillVal ≠ ofLe (load s.area fillValBuf 4) ∧ s.filledBufValidLen ≠ 0 then 0
    else s.filledBufValidLen) = valid
  split <;> exact ⟨rfl, rfl, rfl⟩

variable {c : Cursor} {env : BurnEnv} {totalSz len blkSz left n : ℕ} {r : Handled}
  {c' : Cursor} {p : ℕ × ℕ} {tr : List Handling} {source : List UInt8}

/-- A `CHUNK_TYPE_RAW` chunk has one write at most. -/
theorem rawChunk_spec (h : rawChunk c totalSz len = .ok r) :
    SameChunks c.st r.st ∧ (r.writes = [] ∨ ∃ w, r.writes = [w]) := by
  rw [rawChunk] at h
  split at h
  · cases h
  dsimp only at h
  generalize decide (c.unParsedBufLen < totalSz) = long at h
  generalize (if long = true then alignSlot (c.unParsedBufLen - 12) else len) = want at h
  generalize hst : (if long = true then c.st.holdBack (sub32 len want)
    ((c.flashAddrStart + want / 512) % 2 ^ 32)
    else c.st) = st at h
  -- the state is `c.st`, or holds back the end of the chunk
  have hsame : SameChunks c.st st := by
    rw [← hst]
    cases long <;> exact ⟨rfl, rfl, rfl⟩
  split at h
  · cases h
  split at h
  · cases h
    exact ⟨hsame, .inr ⟨_, rfl⟩⟩
  · cases h
    exact ⟨hsame, .inl rfl⟩

theorem fillChunk_sameChunks (h : fillChunk env c totalSz len = .ok r) : SameChunks c.st r.st := by
  rw [fillChunk] at h
  split at h
  · cases h
  dsimp only at h
  split at h
  · cases h
  split at h
  · cases h
    exact prepareFillBuf_sameChunks _ _ _
  · cases h
    exact .refl _

theorem handleChunk_sameChunks {hd : ChunkHeader} (h : handleChunk env c hd len = .ok r) :
    SameChunks c.st r.st := by
  rw [handleChunk] at h
  split at h
  · exact (rawChunk_spec h).1
  split at h
  · rw [dontCareChunk] at h
    split at h
    · cases h
    · cases h
      exact .refl _
  split at h
  · exact fillChunk_sameChunks h
  · cases h

/-- The sectors of a chunk, as the code counts them. -/
def sectors (blkSz : ℕ) (h : ChunkHeader) : ℕ := h.chunkSz * blkSz % 2 ^ 32 / 512

/-- What one round of the loop does to the counters. -/
structure Stepped (c c' : Cursor) : Prop where
  back : c'.st.backChunkNum = (c.st.backChunkNum + 1) % 2 ^ 32
  blk : c'.st.sparseBlkSz = c.st.sparseBlkSz
  flash : c'.flashAddrStart = (c.flashAddrStart + sectors c.st.sparseBlkSz (.read c.pChunk)) % 2 ^ 32

theorem chunkStep_stepped (h : chunkStep env c = .ok c') : Stepped c c' := by
  rw [chunkStep] at h
  split at h
  · cases h
  dsimp only at h
  split at h
  · cases h
  · next r hr =>
    have hsame := handleChunk_sameChunks hr
    cases h
    exact ⟨by rw [SimgState.backUp_backChunkNum, hsame.back], hsame.blk, rfl⟩

/-! ### Counting along a trace -/

/-- The backups and flash addresses of a trace, from these values of the counters on. -/
def Tracks (blkSz : ℕ) : ℕ × ℕ → List Handling → Prop
  | _, [] => True
  | (back, flash), h :: tr => (h.backup = 28 + 12 * back ∧ h.flash = flash) ∧
      Tracks blkSz ((back + 1) % 2 ^ 32, (flash + sectors blkSz h.header) % 2 ^ 32) tr

/-- The counters behind a trace. -/
def countersAfter (blkSz : ℕ) (p : ℕ × ℕ) (tr : List Handling) : ℕ × ℕ :=
  tr.foldl (fun p h => ((p.1 + 1) % 2 ^ 32, (p.2 + sectors blkSz h.header) % 2 ^ 32)) p

theorem Tracks.append {tr' : List Handling} (h : Tracks blkSz p tr)
    (h' : Tracks blkSz (countersAfter blkSz p tr) tr') : Tracks blkSz p (tr ++ tr') := by
  induction tr generalizing p with
  | nil => exact h'
  | cons x tr ih => exact ⟨h.1, ih h.2 h'⟩

theorem countersAfter_eq (blkSz : ℕ) (hback : p.1 < 2 ^ 32) (hflash : p.2 < 2 ^ 32)
    (tr : List Handling) : countersAfter blkSz p tr =
      ((p.1 + tr.length) % 2 ^ 32, (p.2 + (tr.map fun h => sectors blkSz h.header).sum) % 2 ^ 32) := by
  induction tr generalizing p with
  | nil =>
    simp only [countersAfter, foldl_nil, length_nil, map_nil, sum_nil, add_zero]
    rw [Nat.mod_eq_of_lt hback, Nat.mod_eq_of_lt hflash]
  | cons x tr ih =>
    refine (ih (Nat.mod_lt _ (by decide)) (Nat.mod_lt _ (by decide))).trans ?_
    rw [length_cons, map_cons, sum_cons]
    ext <;> dsimp only <;> omega

theorem Tracks.getElem (hback : p.1 < 2 ^ 32) (hflash : p.2 < 2 ^ 32)
    (h : Tracks blkSz p tr) {k : ℕ} {x : Handling} (hx : tr[k]? = some x) :
    x.backup = 28 + 12 * ((p.1 + k) % 2 ^ 32) ∧
      x.flash = (p.2 + ((tr.take k).map fun h => sectors blkSz h.header).sum) % 2 ^ 32 := by
  induction tr generalizing p k with
  | nil => simp at hx
  | cons y tr ih =>
    cases k with
    | zero =>
      cases hx
      exact ⟨by rw [h.1.1, add_zero, Nat.mod_eq_of_lt hback], h.1.2.trans (Nat.mod_eq_of_lt hflash).symm⟩
    | succ k =>
      have hnext := ih (Nat.mod_lt _ (by decide)) (Nat.mod_lt _ (by decide)) h.2 hx
      rw [take_succ_cons, map_cons, sum_cons]
      omega

/-! ### The whole download -/

/-- The loop over the chunks, and what it leaves behind when it ends well. -/
theorem chunkTrace_spec (env : BurnEnv) (left : ℕ) (c : Cursor) :
    Tracks c.st.sparseBlkSz (c.st.backChunkNum, c.flashAddrStart) (chunkTrace env left c) ∧
      (chunkTrace env left c).length ≤ left ∧ ∀ c', chunkLoop env left c = .ok c' →
        c'.st.leftChunkNum + (chunkTrace env left c).length = left ∧
          c'.st.sparseBlkSz = c.st.sparseBlkSz ∧ (c'.st.backChunkNum, c'.flashAddrStart) =
            countersAfter c.st.sparseBlkSz (c.st.backChunkNum, c.flashAddrStart)
            (chunkTrace env left c) := by
  induction left generalizing c with
  | zero =>
    refine ⟨trivial, le_rfl, fun c' h => ?_⟩
    cases h
    exact ⟨rfl, rfl, rfl⟩
  | succ left ih =>
    rw [chunkTrace, chunkLoop]
    split
    · refine ⟨trivial, Nat.zero_le _, fun c' h => ?_⟩
      cases h
      exact ⟨rfl, rfl, rfl⟩
    rcases hstep : chunkStep env c with e | c₁
    · exact ⟨trivial, Nat.zero_le _, fun _ h => by cases h⟩
    obtain ⟨htracks, hlen, hend⟩ := ih c₁
    have hs := chunkStep_stepped hstep
    rw [hs.back, hs.blk, hs.flash] at htracks hend
    refine ⟨⟨⟨rfl, rfl⟩, htracks⟩, Nat.succ_le_succ hlen, fun c' h => ?_⟩
    obtain ⟨hleft, hblk, hcounters⟩ := hend c' h
    exact ⟨by rw [length_cons]; omega, hblk, hcounters⟩

/-- A call ends before the loop, or is the loop. -/
theorem simgToMedia_cases (env : BurnEnv) (s : SimgState) (pkt : List UInt8) (flash : ℕ) :
    (simgEntry s pkt flash = none ∧ ∃ r, simgToMedia env s pkt flash = .ok r ∧ r.ret = 0 ∧
      SameChunks s r.st) ∨ ∃ c, simgEntry s pkt flash = some c ∧ SameChunks s c.st ∧
        c.flashAddrStart = flash ∧ simgToMedia env s pkt flash = simgParse env flash c := by
  by_cases hlong : s.notWrBackSz4LongChunk ≠ 0 ∧ s.pktHeadLen = 0
  · by_cases hle : pkt.length ≤ s.notWrBackSz4LongChunk
    · refine .inl ⟨?_, ?_⟩
      · rw [simgEntry, if_pos hlong, if_pos hle]
      · rw [simgToMedia]
        rw [if_pos hlong, if_pos hle]
        exact ⟨_, rfl, rfl, rfl, rfl, rfl⟩
    · refine .inr ?_
      rw [simgEntry, simgToMedia]
      simp only [if_pos hlong, if_neg hle, lt_irrefl]
      exact ⟨_, rfl, ⟨rfl, rfl, rfl⟩, rfl, rfl⟩
  · refine .inr ?_
    rw [simgEntry, simgToMedia]
    simp only [if_neg hlong]
    exact ⟨_, rfl, .refl _, rfl, rfl⟩

/-- The counters of a download: headers backed up, and the sector the next call begins at. -/
def Download.counters (d : Download) : ℕ × ℕ :=
  (d.st.backChunkNum, d.nextMediaOffset / 512 % 2 ^ 32)

/-- One call of a download. -/
theorem downloadSparseImage_counters {d d' : Download} {piece : List UInt8}
    (hd : d.st.backChunkNum < 2 ^ 32) (h : downloadSparseImage env d piece = some d') :
    let tr := callTrace env d.st (d.tail ++ piece) (d.nextMediaOffset / 512 % 2 ^ 32)
    d'.st.leftChunkNum + tr.length = d.st.leftChunkNum ∧ d'.st.sparseBlkSz = d.st.sparseBlkSz ∧
      d'.counters = countersAfter d.st.sparseBlkSz d.counters tr := by
  intro tr
  rw [downloadSparseImage] at h
  have hflash : d.nextMediaOffset / 512 % 2 ^ 32 < 2 ^ 32 := Nat.mod_lt _ (by decide)
  rcases simgToMedia_cases env d.st (d.tail ++ piece) (d.nextMediaOffset / 512 % 2 ^ 32) with
    ⟨hentry, r, hr, hret, hsame⟩ | ⟨c, hentry, hsame, hc, hr⟩
  · have htr : tr = [] := by simp only [tr, callTrace, hentry]
    rw [hr, Download.accept] at h
    split at h
    · cases h
    cases h
    rw [htr, hret]
    exact ⟨hsame.left, hsame.blk, Prod.ext hsame.back rfl⟩
  · have htr : tr = chunkTrace env c.st.leftChunkNum c := by simp only [tr, callTrace, hentry]
    rw [hr, simgParse] at h
    split at h
    · cases h
    next c' hloop =>
    obtain ⟨-, -, hend⟩ := chunkTrace_spec env c.st.leftChunkNum c
    obtain ⟨hleft, hblk, hcounters⟩ := hend c' hloop
    rw [← htr, hsame.left] at hleft
    rw [← htr, hsame.blk, hsame.back, hc] at hcounters
    rw [hsame.blk] at hblk
    rw [Download.accept] at h
    split at h
    · cases h
    next hok =>
    cases h
    refine ⟨hleft, hblk, ?_⟩
    rw [Download.counters, Download.counters, ← hcounters]
    refine Prod.ext rfl ?_
    -- the sectors are returned modulo `2 ^ 32`, and as an `int` that is not negative
    rw [countersAfter_eq _ hd hflash] at hcounters
    have hend := congrArg Prod.snd hcounters
    dsimp only at hend hok ⊢
    generalize (tr.map fun h => sectors d.st.sparseBlkSz h.header).sum = n at hend
    rw [toInt32, sub32] at hok ⊢
    split at hok
    · next hlt =>
      omega
    · omega

/-- The whole download. -/
theorem downloadTrace_tracks (env : BurnEnv) (pieces : List (List UInt8)) (d : Download)
    (hd : d.st.backChunkNum < 2 ^ 32) :
    Tracks d.st.sparseBlkSz d.counters (downloadTrace env d pieces) ∧
      (downloadTrace env d pieces).length ≤ d.st.leftChunkNum := by
  induction pieces generalizing d with
  | nil => exact ⟨trivial, Nat.zero_le _⟩
  | cons piece pieces ih =>
    have hcall : Tracks d.st.sparseBlkSz d.counters
          (callTrace env d.st (d.tail ++ piece) (d.nextMediaOffset / 512 % 2 ^ 32)) ∧
        (callTrace env d.st (d.tail ++ piece) (d.nextMediaOffset / 512 % 2 ^ 32)).length ≤
          d.st.leftChunkNum := by
      rw [callTrace]
      rcases simgToMedia_cases env d.st (d.tail ++ piece) (d.nextMediaOffset / 512 % 2 ^ 32) with
        ⟨hentry, -⟩ | ⟨c, hentry, hsame, hc, -⟩
      · rw [hentry]
        exact ⟨trivial, Nat.zero_le _⟩
      · obtain ⟨htracks, hlen, -⟩ := chunkTrace_spec env c.st.leftChunkNum c
        rw [hsame.blk, hsame.back, hc] at htracks
        rw [hentry, ← hsame.left]
        exact ⟨htracks, hlen⟩
    rw [downloadTrace]
    split
    · rw [append_nil]
      exact hcall
    next d' hdown =>
    obtain ⟨hleft, hblk, hcounters⟩ := downloadSparseImage_counters hd hdown
    have hback : d'.st.backChunkNum < 2 ^ 32 := by
      have hfst := congrArg Prod.fst hcounters
      rw [countersAfter_eq _ hd (Nat.mod_lt _ (by decide))] at hfst
      rw [Download.counters] at hfst
      omega
    obtain ⟨htracks, hlen⟩ := ih d' hback
    rw [hblk, hcounters] at htracks
    refine ⟨hcall.1.append htracks, ?_⟩
    rw [length_append]
    omega

/-! ### The area for the headers -/

/-- The field `total_chunks` of a file header. -/
def totalChunks (source : List UInt8) : ℕ := ofLe ((source.drop 20).take 4)

/-- The headers that are backed up stay in front of the fill buffer. -/
def BackupsInside (env : BurnEnv) (d : Download) (pieces : List (List UInt8)) : Prop :=
  ∀ h ∈ downloadTrace env d pieces, h.backup + 12 ≤ fillValBuf

/-- The number of headers that fit behind the file header. -/
def maxBackups : ℕ := 174760

example : 28 + 12 * maxBackups ≤ fillValBuf ∧ fillValBuf < 28 + 12 * (maxBackups + 1) := by decide

section

variable (env)

theorem tracks_start (source : List UInt8) (s : SimgState) (pieces : List (List UInt8)) :
    Tracks (ofLe ((source.drop 12).take 4)) (0, 0) (downloadTrace env (.start source s) pieces) ∧
      (downloadTrace env (.start source s) pieces).length ≤ totalChunks source := by
  have htracks := downloadTrace_tracks env pieces (.start source s) (by decide : (0 : ℕ) < 2 ^ 32)
  have hcounters : (Download.start source s).counters = (0, 0) :=
    Prod.ext rfl (by decide : 0 / 512 % 2 ^ 32 = 0)
  rw [hcounters] at htracks
  exact htracks

/-- The headers stay inside exactly as long as there are few enough of them. -/
theorem backupsInside_iff_length (source : List UInt8) (s : SimgState)
    (pieces : List (List UInt8)) : BackupsInside env (.start source s) pieces ↔
      (downloadTrace env (.start source s) pieces).length ≤ maxBackups := by
  obtain ⟨htracks, -⟩ := tracks_start env source s pieces
  rw [BackupsInside]
  generalize downloadTrace env (.start source s) pieces = tr at htracks
  have hbackup : ∀ {k : ℕ} {x : Handling}, tr[k]? = some x → x.backup = 28 + 12 * (k % 2 ^ 32) :=
    fun hx => by
    rw [(htracks.getElem (by decide) (by decide) hx).1, zero_add]
  constructor
  · intro hinside
    by_contra hlen
    obtain ⟨x, hx⟩ : ∃ x, tr[maxBackups]? = some x := ⟨_, List.getElem?_eq_getElem (not_le.mp hlen)⟩
    have hlast := hinside x (mem_of_getElem? hx)
    rw [hbackup hx] at hlast
    exact absurd hlast (by decide)
  · intro hlen x hmem
    obtain ⟨k, hk⟩ := mem_iff_getElem?.mp hmem
    have hlt : k < tr.length := (List.getElem?_eq_some_iff.mp hk).1
    rw [hbackup hk]
    rw [maxBackups] at hlen
    rw [fillValBuf]
    omega

/-- A chunk without data. -/
def emptyChunk : Chunk := ⟨0, 0, .dontCare⟩

theorem emptyChunk_wellFormed : emptyChunk.WellFormed 0 :=
  ⟨by decide, by decide, by decide, by decide, fun _ h => (by cases h), fun _ h => (by cases h)⟩

/-- Every chunk without data is handled. -/
theorem length_chunkTrace_emptyChunks (hle : n ≤ left)
    (hp : c.pChunk = (replicate n emptyChunk.header).flatten) (hlen : c.unParsedBufLen = 12 * n)
    (hlt : 12 * n < 2 ^ 32) (hno : c.st.notWrBackSz4LongChunk = 0) :
      (chunkTrace env left c).length = n := by
  induction n generalizing left c with
  | zero =>
    cases left with
    | zero => rfl
    | succ left =>
      rw [chunkTrace, if_pos (.inr (by omega))]
      rfl
  | succ n ih =>
    obtain _ | left := left
    · omega
    rw [replicate_succ, flatten_cons] at hp
    have hread := ChunkHeader.read_header emptyChunk_wellFormed (replicate n emptyChunk.header).flatten
    rw [← hp] at hread
    have hlong : ¬ c.pChunk.length < 12 := by
      rw [hp, length_append, Chunk.length_header]
      omega
    have hstep : ∃ c', chunkStep env c = .ok c' ∧ c'.pChunk = (replicate n emptyChunk.header).flatten ∧
        c'.unParsedBufLen = 12 * n ∧ c'.st.notWrBackSz4LongChunk = 0 := by
      rw [chunkStep, if_neg hlong]
      rw [hread]
      refine ⟨_, rfl, ?_, ?_, hno⟩
      · rw [hp]
        exact drop_left' emptyChunk.length_header
      · dsimp only
        rw [sub32]
        omega
    obtain ⟨c', hok, hp', hlen', hno'⟩ := hstep
    rw [chunkTrace, if_neg (by rw [hno]; omega), hok, length_cons, ih (by omega) hp' hlen' (by omega) hno']

/-- A buffer with the file header and chunks without data. -/
theorem le_length_downloadTrace (s : SimgState)
    (hprobe : simgProbe source = true) (hle : n ≤ totalChunks source) (hlt : 28 + 12 * n < 2 ^ 32) :
    n ≤ (downloadTrace env (.start source s)
      [source.take 28 ++ (replicate n emptyChunk.header).flatten]).length := by
  simp only [simgProbe, Bool.and_eq_true, decide_eq_true_iff, beq_iff_eq] at hprobe
  obtain ⟨⟨hlen, -⟩, ⟨-, hhead⟩, -⟩ := hprobe
  have hempty : (replicate n emptyChunk.header).flatten.length = 12 * n := by
    rw [length_flatten, map_replicate, sum_replicate_nat, Chunk.length_header, mul_comm]
  have htake : (source.take 28).length = 28 := by
    rw [length_take]
    omega
  have hstart : (Download.start source s).st.pktHeadLen = 28 := hhead
  have htail : (Download.start source s).tail = [] := rfl
  rw [downloadTrace, length_append]
  refine le_trans (le_of_eq (Eq.symm ?_)) (Nat.le_add_right _ _)
  refine length_chunkTrace_emptyChunks env hle ?_ ?_ (by omega) rfl
  · rw [hstart]
    exact drop_left' htake
  · rw [htail, nil_append, length_append, sub32]
    dsimp only
    omega

/-- An image of chunks without data, one more than there is room for. -/
theorem not_backupsInside_emptyChunks (s : SimgState)
    (hprobe : simgProbe source = true) (hmany : maxBackups < totalChunks source) :
    ¬ BackupsInside env (.start source s)
      [source.take 28 ++ (replicate (maxBackups + 1) emptyChunk.header).flatten] := by
  rw [backupsInside_iff_length, not_le]
  exact le_length_downloadTrace env s hprobe hmany (by decide)

end

/-- Whatever follows a file header that is accepted, the headers that are backed up stay inside
their area exactly if the header does not announce more chunks than there is room for. -/
theorem backupsInside_iff {source : List UInt8} (hprobe : simgProbe source = true) :
    (∀ env s pieces, source.take 28 <+: pieces.flatten →
      BackupsInside env (.start source s) pieces) ↔ totalChunks source ≤ maxBackups := by
  constructor
  · intro hinside
    by_contra hmany
    let env : BurnEnv := ⟨.emmc, 0⟩
    let s : SimgState := ⟨0, 0, 0, 0, 0, 0, 0, 0, fun _ => 0⟩
    refine not_backupsInside_emptyChunks env s hprobe (not_le.mp hmany) (hinside env s _ ?_)
    rw [flatten_singleton]
    exact prefix_append _ _
  · intro hfew env s pieces _
    rw [backupsInside_iff_length]
    exact le_trans (tracks_start env source s pieces).2 hfew

/-- A file header that announces this many chunks. -/
def headerOf (chunks : ℕ) : List UInt8 :=
  leBytes 4 sparseHeaderMagic ++ leBytes 2 1 ++ leBytes 2 0 ++ leBytes 2 28 ++ leBytes 2
    12 ++ leBytes 4 4096 ++ leBytes 4 0 ++ leBytes 4 chunks ++ leBytes 4 0

theorem backupsInside_hundred :
    BackupsInside ⟨.emmc, 0⟩ (.start (headerOf 100) ⟨0, 0, 0, 0, 0, 0, 0, 0, fun _ => 0⟩)
      [(headerOf 100).take 28 ++ (replicate 100 emptyChunk.header).flatten] := by
  refine (backupsInside_iff (by decide +kernel)).mpr (by decide +kernel) _ _ _ ?_
  exact prefix_append _ _

/-- With 174761 chunks the last header reaches into the fill buffer. -/
theorem not_backupsInside_oneMore : simgProbe (headerOf 174761) = true ∧
    ¬ BackupsInside ⟨.emmc, 0⟩ (.start (headerOf 174761) ⟨0, 0, 0, 0, 0, 0, 0, 0, fun _ => 0⟩)
      [(headerOf 174761).take 28 ++ (replicate 174761 emptyChunk.header).flatten] := by
  have hprobe : simgProbe (headerOf 174761) = true := by decide +kernel
  exact ⟨hprobe, not_backupsInside_emptyChunks _ _ hprobe (by decide +kernel)⟩

end UBoot.Burning
