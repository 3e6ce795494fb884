import Mathlib.Algebra.BigOperators.Ring.List
import Mathlib.Algebra.Order.BigOperators.Group.List
import Mathlib.Algebra.Order.Ring.Nat
import UBoot.Burning.SimgTrace
import UBoot.Burning.SimgVerify

/-!
# The offsets of chunks

A chunk should be burned, and later read back, at the sum of the sizes of the chunks in front of it.
The size of a chunk, `chunk_sz * blk_sz`, is computed with 32 bits in both places. The burn also
keeps its address in sectors of 512 bytes, in a number of 32 bits.
-/

namespace UBoot.Burning

open UBoot.Common List

variable {α : Type} {f g : α → ℕ} {n m : ℕ}

/-! ### Sums that lose something -/

/-- If a function loses something of some summand, its sum is smaller. -/
theorem sum_map_eq_iff (hle : ∀ x, f x ≤ g x) (l : List α) :
    (l.map f).sum = (l.map g).sum ↔ ∀ x ∈ l, f x = g x := by
  induction l with
  | nil => simp
  | cons x l ih =>
    have hx := hle x
    have hl := sum_le_sum fun x (_ : x ∈ l) => hle x
    rw [map_cons, map_cons, sum_cons, sum_cons, forall_mem_cons, ← ih]
    omega

/-- A property that goes over to the beginnings of a list holds in front of each element if it holds
in front of the last. -/
theorem forall_take_iff {P : List α → Prop} (hnil : P []) (htake : ∀ l k, P l → P (l.take k))
    (l : List α) : (∀ k < l.length, P (l.take k)) ↔ P l.dropLast := by
  rw [dropLast_eq_take]
  constructor
  · intro h
    cases l with
    | nil => exact hnil
    | cons x l => exact h l.length (Nat.lt_succ_self _)
  · intro h k hk
    have hk' := htake _ k h
    rwa [take_take, min_eq_left (Nat.le_sub_one_of_lt hk)] at hk'

/-! ### The burn -/

/-- The size of a chunk. -/
def chunkSize (blkSz : ℕ) (h : ChunkHeader) : ℕ := h.chunkSz * blkSz

/-- Every chunk is burned at the sum of the sizes in front of it. -/
def BurnsAtSums (env : BurnEnv) (source : List UInt8) (s : SimgState) (pieces : List (List UInt8)) :
    Prop :=
  let tr := downloadTrace env (.start source s) pieces
  ∀ k x, tr[k]? = some x →
    x.flash * 512 = ((tr.take k).map fun h => chunkSize (ofLe ((source.drop 12).take 4)) h.header).sum

/-- All chunks but the last are whole sectors, below 4 GiB each and below 2 TiB together. -/
structure SectorSized (blkSz : ℕ) (chunks : List ChunkHeader) : Prop where
  whole : ∀ h ∈ chunks.dropLast, 512 ∣ chunkSize blkSz h
  small : ∀ h ∈ chunks.dropLast, chunkSize blkSz h < 2 ^ 32
  total : (chunks.dropLast.map (chunkSize blkSz)).sum < 2 ^ 41

variable (blkSz : ℕ)

theorem sectors_mul_le (h : ChunkHeader) : sectors blkSz h * 512 ≤ chunkSize blkSz h :=
  le_trans (Nat.div_mul_le_self _ _) (Nat.mod_le _ _)

theorem sectors_mul_eq_iff (h : ChunkHeader) :
    sectors blkSz h * 512 = chunkSize blkSz h ↔ 512 ∣ chunkSize blkSz h ∧ chunkSize blkSz h < 2 ^ 32 := by
  have hdef : sectors blkSz h = chunkSize blkSz h % 2 ^ 32 / 512 := rfl
  rw [hdef]
  generalize chunkSize blkSz h = n
  constructor
  · intro heq
    exact ⟨⟨_, by rw [mul_comm]; exact heq.symm⟩, by omega⟩
  · rintro ⟨⟨m, rfl⟩, hlt⟩
    omega

theorem mod_mul_eq_iff (h : n * 512 ≤ m) : n % 2 ^ 32 * 512 = m ↔ n * 512 = m ∧ m < 2 ^ 41 := by
  omega

variable (chunks : List ChunkHeader)

/-- The flash address in front of the chunks that follow `chunks`. -/
theorem sum_sectors_eq_iff :
    (chunks.map (sectors blkSz)).sum % 2 ^ 32 * 512 = (chunks.map (chunkSize blkSz)).sum ↔
      (∀ h ∈ chunks, 512 ∣ chunkSize blkSz h ∧ chunkSize blkSz h < 2 ^ 32) ∧
        (chunks.map (chunkSize blkSz)).sum < 2 ^ 41 := by
  have hle := sum_le_sum fun h (_ : h ∈ chunks) => sectors_mul_le blkSz h
  have heq := sum_map_eq_iff (sectors_mul_le blkSz) chunks
  simp only [sectors_mul_eq_iff] at heq
  rw [sum_map_mul_right] at hle heq
  rw [mod_mul_eq_iff hle, heq]

/-- The sums in front of all chunks are right exactly if the last of them is. -/
theorem sectorSized_iff :
    (∀ k < chunks.length, (∀ h ∈ chunks.take k, 512 ∣ chunkSize blkSz h ∧ chunkSize blkSz h < 2 ^ 32) ∧
      ((chunks.take k).map (chunkSize blkSz)).sum < 2 ^ 41) ↔ SectorSized blkSz chunks := by
  refine (forall_take_iff (P := fun l => (∀ h ∈ l, 512 ∣ chunkSize blkSz h ∧ chunkSize blkSz h < 2 ^ 32) ∧
    (l.map (chunkSize blkSz)).sum < 2 ^ 41) ⟨nofun, Nat.two_pow_pos 41⟩
      (fun l k h => ⟨fun x hx => h.1 x (mem_of_mem_take hx), Nat.lt_of_le_of_lt
      (((take_sublist k l).map _).sum_le_sum fun _ _ => Nat.zero_le _) h.2⟩) chunks).trans ?_
  constructor
  · intro h
    exact ⟨fun x hx => (h.1 x hx).1, fun x hx => (h.1 x hx).2, h.2⟩
  · intro h
    exact ⟨fun x hx => ⟨h.whole x hx, h.small x hx⟩, h.total⟩

theorem burnsAtSums_iff (env : BurnEnv) (source : List UInt8) (s : SimgState)
    (pieces : List (List UInt8)) : BurnsAtSums env source s pieces ↔
      SectorSized (ofLe ((source.drop 12).take 4))
      ((downloadTrace env (.start source s) pieces).map Handling.header) := by
  obtain ⟨htracks, -⟩ := tracks_start env source s pieces
  rw [BurnsAtSums, ← sectorSized_iff]
  generalize downloadTrace env (.start source s) pieces = tr at htracks
  generalize ofLe ((source.drop 12).take 4) = blkSz at htracks
  have hstep : ∀ k x, tr[k]? = some x →
        (x.flash * 512 = ((tr.take k).map fun h => chunkSize blkSz h.header).sum ↔
          (∀ h ∈ (tr.map Handling.header).take k, 512 ∣ chunkSize blkSz h ∧ chunkSize blkSz h < 2 ^
          32) ∧ (((tr.map Handling.header).take k).map (chunkSize blkSz)).sum < 2 ^ 41) := by
    intro k x hx
    rw [(htracks.getElem (by decide) (by decide) hx).2, zero_add, ← sum_sectors_eq_iff,
      ← map_take, map_map, map_map]
    rfl
  rw [length_map]
  constructor
  · intro h k hk
    have hget := List.getElem?_eq_getElem hk
    exact (hstep k _ hget).mp (h k _ hget)
  · intro h k x hx
    exact (hstep k x hx).mpr (h k (List.getElem?_eq_some_iff.mp hx).1)

/-! ### Reading back -/

/-- The `i`-th header that was backed up. -/
def SimgState.backed (s : SimgState) (i : ℕ) : ChunkHeader := .read (load s.area (28 + 12 * i) 12)

/-- The sizes of the first `k` chunks that were backed up. -/
def SimgState.backedSum (s : SimgState) (k : ℕ) : ℕ :=
  ((List.range k).map fun i => chunkSize s.sparseBlkSz (s.backed i)).sum

/-- A state that calls of `optimus_sparse_get_chunk_data` come to. -/
inductive ReadsTo (t : SimgState) : SimgState → Prop
  | start : ReadsTo t t
  | call {s s' : SimgState} {q : ChunkData} (h : ReadsTo t s)
      (hcall : sparseGetChunkData s = some (s', q)) : ReadsTo t s'

/-- Every offset that is handed out, with the chunk it is for, is the sum of the sizes in front of
it. -/
def ReadsAtSums (t : SimgState) : Prop :=
  ∀ s s' q, ReadsTo t s → sparseGetChunkData s = some (s', q) → s.leftChunkNum < s'.leftChunkNum →
    q.dataOffset = t.backedSum (s'.leftChunkNum - 1)

/-- The sum of the sizes that is computed with 32 bits. -/
def SimgState.readSum (s : SimgState) (k : ℕ) : ℕ :=
  ((List.range k).map fun i => chunkSize s.sparseBlkSz (s.backed i) % 2 ^ 32).sum

theorem SimgState.readSum_succ (s : SimgState) (k : ℕ) :
    s.readSum (k + 1) = s.readSum k + chunkSize s.sparseBlkSz (s.backed k) % 2 ^ 32 := by
  rw [readSum, range_succ, map_append, sum_append]
  rfl

/-- Below `2 ^ 32` chunks the sum stays below `2 ^ 64`. -/
theorem SimgState.readSum_lt (s : SimgState) {k : ℕ} (hk : k < 2 ^ 32) : s.readSum k < 2 ^ 64 := by
  have hle : s.readSum k ≤ k * 2 ^ 32 := by
    have hsum := sum_le_card_nsmul ((range k).map fun i => chunkSize s.sparseBlkSz (s.backed i) %
      2 ^ 32) (2 ^ 32) (forall_mem_map.mpr fun i _ => (Nat.mod_lt _ (by decide)).le)
    rwa [length_map, length_range] at hsum
  calc s.readSum k ≤ k * 2 ^ 32 := hle
    _ < 2 ^ 32 * 2 ^ 32 := Nat.mul_lt_mul_of_pos_right hk (by decide)
    _ = 2 ^ 64 := by rw [← pow_add]

/-- A state on the way: nothing but the position has changed. -/
structure Reading (t s : SimgState) : Prop where
  area : s.area = t.area
  blk : s.sparseBlkSz = t.sparseBlkSz
  back : s.backChunkNum = t.backChunkNum
  left : s.leftChunkNum ≤ t.backChunkNum
  offset : s.chunkOffset = t.readSum s.leftChunkNum

/-- The `i`-th chunk is in order for `optimus_sparse_get_chunk_data`. -/
def SimgState.Accepts (t : SimgState) (i : ℕ) : Prop :=
  (dataSzOf (t.backed i) (chunkSize t.sparseBlkSz (t.backed i) % 2 ^ 32)).isSome

section Loop

variable {t : SimgState}

/-- The loop passes one chunk at least if there is one, and hands out the offset of the last it
passes. -/
theorem chunkDataLoop_reading (hlt : t.backChunkNum < 2 ^ 32) {s s' : SimgState} {q q' : ChunkData}
    (hs : Reading t s) (hn : s.leftChunkNum + n = t.backChunkNum)
    (h : chunkDataLoop n s q = some (s', q')) :
    Reading t s' ∧ (s'.leftChunkNum = s.leftChunkNum ∧ n = 0 ∨
      s.leftChunkNum < s'.leftChunkNum ∧ q'.dataOffset = t.readSum (s'.leftChunkNum - 1)) := by
  induction n generalizing s q with
  | zero =>
    cases h
    exact ⟨hs, .inl ⟨rfl, rfl⟩⟩
  | succ n ih =>
    have hlen : (ChunkHeader.read (load s.area (28 + 12 * s.leftChunkNum) 12)).chunkSz *
        s.sparseBlkSz % 2 ^ 32 = chunkSize t.sparseBlkSz (t.backed s.leftChunkNum) % 2 ^ 32 := by
      rw [hs.area, hs.blk]
      rfl
    rw [chunkDataLoop] at h
    rw [hlen] at h
    split at h
    · cases h
    next dataSz _ =>
    have hsum := t.readSum_succ s.leftChunkNum
    have hbound := t.readSum_lt (k := s.leftChunkNum + 1) (by omega)
    -- the state behind this chunk
    have hnext : Reading t { s with
        chunkOffset := (s.chunkOffset + chunkSize t.sparseBlkSz (t.backed s.leftChunkNum) % 2 ^
          32) % 2 ^ 64
        leftChunkNum := s.leftChunkNum + 1 } :=
      ⟨hs.area, hs.blk, hs.back, by dsimp only; omega, by
        rw [hs.offset, ← hsum, Nat.mod_eq_of_lt hbound]⟩
    split at h
    · cases h
      exact ⟨hnext, .inr ⟨Nat.lt_succ_self _, hs.offset⟩⟩
    obtain ⟨hread, hpos⟩ := ih hnext (by dsimp only; omega) h
    refine ⟨hread, .inr ?_⟩
    rcases hpos with ⟨hleft, rfl⟩ | ⟨hleft, hoff⟩
    · cases h
      exact ⟨Nat.lt_succ_self _, hs.offset⟩
    · exact ⟨lt_trans (Nat.lt_succ_self _) hleft, hoff⟩

/-- As long as the chunks are in order the loop ends well. -/
theorem chunkDataLoop_isSome (haccept : ∀ i < t.backChunkNum, t.Accepts i)
    {s : SimgState} {q : ChunkData}
    (harea : s.area = t.area) (hblk : s.sparseBlkSz = t.sparseBlkSz)
      (hn : s.leftChunkNum + n = t.backChunkNum) :
    (chunkDataLoop n s q).isSome := by
  induction n generalizing s q with
  | zero => rfl
  | succ n ih =>
    rw [chunkDataLoop, harea, hblk]
    have hok := haccept s.leftChunkNum (by omega)
    rw [SimgState.Accepts, SimgState.backed, chunkSize] at hok
    obtain ⟨dataSz, hsz⟩ := Option.isSome_iff_exists.mp hok
    rw [hsz]
    dsimp only
    split
    · rfl
    · exact ih rfl rfl (by dsimp only; omega)

theorem ReadsTo.reading (hleft : t.leftChunkNum = 0) (hoffset : t.chunkOffset = 0)
    (hlt : t.backChunkNum < 2 ^ 32) {s : SimgState} (h : ReadsTo t s) : Reading t s := by
  induction h with
  | start => exact ⟨rfl, rfl, rfl, by rw [hleft]; exact Nat.zero_le _, by rw [hleft, hoffset]; rfl⟩
  | call _ hcall ih =>
    have hleft' := ih.left
    rw [sparseGetChunkData, ih.back] at hcall
    exact (chunkDataLoop_reading hlt ih (by omega) hcall).1

/-- From every position on, the last chunk is handed out in the end. -/
theorem exists_last (hlt : t.backChunkNum < 2 ^ 32) (haccept : ∀ i < t.backChunkNum, t.Accepts i)
    {s : SimgState} (hs : Reading t s) (hr : ReadsTo t s)
    (hm : s.leftChunkNum + (m + 1) = t.backChunkNum) :
    ∃ s₁ s₂ q, ReadsTo t s₁ ∧ sparseGetChunkData s₁ = some (s₂, q) ∧ s₁.leftChunkNum < s₂.leftChunkNum ∧
      s₂.leftChunkNum = t.backChunkNum ∧ q.dataOffset = t.readSum (t.backChunkNum - 1) := by
  induction m using Nat.strong_induction_on generalizing s with
  | _ m ih =>
    have hn : s.backChunkNum - s.leftChunkNum = m + 1 := by
      rw [hs.back]
      omega
    have hsome : (sparseGetChunkData s).isSome := by
      rw [sparseGetChunkData, hn]
      exact chunkDataLoop_isSome haccept hs.area hs.blk hm
    obtain ⟨⟨s', q⟩, hcall⟩ := Option.isSome_iff_exists.mp hsome
    have hloop := hcall
    rw [sparseGetChunkData, hn] at hloop
    obtain ⟨hread, hpos⟩ := chunkDataLoop_reading hlt hs hm hloop
    obtain ⟨hleft, hoff⟩ : s.leftChunkNum < s'.leftChunkNum ∧
        q.dataOffset = t.readSum (s'.leftChunkNum - 1) := by
      rcases hpos with ⟨-, h0⟩ | h
      · omega
      · exact h
    have hle := hread.left
    by_cases hend : s'.leftChunkNum = t.backChunkNum
    · exact ⟨s, s', q, hr, hcall, hleft, hend, by rw [hoff, hend]⟩
    · exact ih (t.backChunkNum - s'.leftChunkNum - 1) (by omega) hread (hr.call hcall) (by omega)

/-- The offsets are right exactly if all chunks but the last are below 4 GiB. -/
theorem readsAtSums_iff (hleft : t.leftChunkNum = 0) (hoffset : t.chunkOffset = 0)
    (hlt : t.backChunkNum < 2 ^ 32) (haccept : ∀ i < t.backChunkNum, t.Accepts i) :
    ReadsAtSums t ↔ ∀ i, i + 1 < t.backChunkNum → chunkSize t.sparseBlkSz (t.backed i) < 2 ^ 32 := by
  have heq : ∀ k, t.readSum k = t.backedSum k ↔ ∀ i < k, chunkSize t.sparseBlkSz (t.backed i) < 2 ^
    32 := by
    intro k
    have hsum := sum_map_eq_iff (f := fun i => chunkSize t.sparseBlkSz (t.backed i) % 2 ^ 32)
      (fun i => Nat.mod_le _ _) (range k)
    refine hsum.trans (forall_congr' fun i => ?_)
    rw [mem_range]
    refine imp_congr_right fun _ => ⟨fun h => ?_, Nat.mod_eq_of_lt⟩
    rw [← h]
    exact Nat.mod_lt _ (by decide)
  constructor
  · intro hsums i hi
    have hstart : Reading t t := ReadsTo.start.reading hleft hoffset hlt
    obtain ⟨s₁, s₂, q, hr, hcall, hmore, hend, hoff⟩ :=
      exists_last (m := t.backChunkNum - 1) hlt haccept hstart .start (by omega)
    have hright := hsums s₁ s₂ q hr hcall hmore
    rw [hoff, hend] at hright
    exact (heq _).mp hright i (by omega)
  · intro hsmall s s' q hr hcall hmore
    have hs := hr.reading hleft hoffset hlt
    have hle := hs.left
    rw [sparseGetChunkData, hs.back] at hcall
    obtain ⟨hread, hpos⟩ := chunkDataLoop_reading hlt hs (by omega) hcall
    have hle' := hread.left
    rcases hpos with ⟨hsame, -⟩ | ⟨-, hoff⟩
    · omega
    · rw [hoff]
      exact (heq _).mpr fun i hi => hsmall i (by omega)

end Loop

/-! ### Both -/

/-- The offsets of the burn are right exactly if all chunks but the last are whole sectors, below 4
GiB, and below 2 TiB together. The offsets of the verification are right exactly if all chunks but
the last are below 4 GiB. -/
theorem atSums_iff (env : BurnEnv) (source : List UInt8) (s : SimgState)
    (pieces : List (List UInt8)) {t : SimgState} (hleft : t.leftChunkNum = 0)
    (hoffset : t.chunkOffset = 0) (hlt : t.backChunkNum < 2 ^ 32)
    (haccept : ∀ i < t.backChunkNum, t.Accepts i) :
    (BurnsAtSums env source s pieces ↔ SectorSized (ofLe ((source.drop 12).take 4))
      ((downloadTrace env (.start source s) pieces).map Handling.header)) ∧
    (ReadsAtSums t ↔ ∀ i, i + 1 < t.backChunkNum → chunkSize t.sparseBlkSz (t.backed i) < 2 ^ 32) :=
  ⟨burnsAtSums_iff env source s pieces, readsAtSums_iff hleft hoffset hlt haccept⟩

/-- A file header with blocks of 4 KiB and two chunks without data, of so many blocks. -/
def twoHoles (blocks : ℕ) : List UInt8 :=
  headerOf 2 ++ (⟨0, blocks, .dontCare⟩ : Chunk).header ++ (⟨0, 1, .dontCare⟩ : Chunk).header

/-- Nothing is burned yet. -/
def idleState : SimgState := ⟨0, 0, 0, 0, 0, 0, 0, 0, fun _ => 0⟩

/-- The state after the two holes have been burned. -/
def holesBacked (blocks : ℕ) : SimgState :=
  { idleState with sparseBlkSz := 4096, backChunkNum := 2, area := ofList (twoHoles blocks) 0 }

instance (t : SimgState) (i : ℕ) : Decidable (t.Accepts i) := inferInstanceAs (Decidable (_ = true))

theorem accepts_holesBacked : ∀ i < 2, (holesBacked 16).Accepts i ∧
    (holesBacked (2 ^ 20)).Accepts i := by
  decide +kernel

/-- A hole of 64 KiB. -/
theorem atSums_iff_smallHole :
    BurnsAtSums ⟨.emmc, 0⟩ (twoHoles 16) idleState [twoHoles 16] ∧ ReadsAtSums (holesBacked 16) := by
  have h := atSums_iff ⟨.emmc, 0⟩ (twoHoles 16) idleState [twoHoles 16] rfl rfl (by decide)
    fun i hi => (accepts_holesBacked i hi).1
  refine ⟨h.1.mpr ?_, h.2.mpr ?_⟩
  · exact ⟨by decide +kernel, by decide +kernel, by decide +kernel⟩
  · intro i hi
    obtain rfl : i = 0 := by
      have hback : (holesBacked 16).backChunkNum = 2 := rfl
      omega
    decide +kernel

/-- Behind a hole of 4 GiB the next chunk is burned at, and read back from, the beginning. -/
theorem not_atSums_largeHole :
    ¬ BurnsAtSums ⟨.emmc, 0⟩ (twoHoles (2 ^ 20)) idleState [twoHoles (2 ^ 20)] ∧
      ¬ ReadsAtSums (holesBacked (2 ^ 20)) := by
  constructor
  · rw [burnsAtSums_iff]
    exact fun h => absurd (h.small _ mem_cons_self) (by decide +kernel)
  · rw [readsAtSums_iff rfl rfl (by decide) fun i hi => (accepts_holesBacked i hi).2]
    exact fun h => absurd (h 0 (by decide)) (by decide +kernel)

end UBoot.Burning
