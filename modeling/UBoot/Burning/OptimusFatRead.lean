import UBoot.Burning.OptimusFat
import Mathlib.Tactic.Ring

/-!
# Random access to a file on the card

The bytes of a file are those of its clusters, in the order of its chain. As long as every entry of
the FAT that links two clusters of the chain reads as the next cluster, seeks and reads find the
bytes at their position; the four upper bits of an entry of 32 bits are not masked, so they have to
be 0.
-/

namespace UBoot.Burning.Fat

open UBoot.Common

/-! ## The file -/

/-- An entry of the FAT on the disk. -/
def Volume.fatEntry (v : Volume) (e : ℕ) : ℕ :=
  match v.fatsize with
  | .fat32 => ofLe (load v.disk (v.fatSect * 512 + 4 * e) 4)
  | .fat16 => ofLe (load v.disk (v.fatSect * 512 + 2 * e) 2)
  | .fat12 =>
    let word := ofLe (load v.disk (v.fatSect * 512 + (e + e / 2)) 2)
    if e % 2 = 0 then word % 0x1000 else word / 16

/-- The next cluster: the upper four bits of an entry of 32 bits are reserved. -/
def Volume.nextClust (v : Volume) (e : ℕ) : ℕ :=
  if v.fatsize = .fat32 then v.fatEntry e % 2 ^ 28 else v.fatEntry e

/-- Where a cluster begins on the disk. -/
def Volume.clusterAddr (v : Volume) (c : ℕ) : ℕ := (v.dataSect + (c - 2) * v.clustSize) * 512

/-- A chain of clusters of the right length, with clusters that exist. -/
structure Opened.Chain (o : Opened) (chain : ℕ → ℕ) (len : ℕ) : Prop where
  length : len = (o.filesize + o.vol.bytesperclust - 1) / o.vol.bytesperclust
  head : 0 < len → o.headclust = chain 0
  valid : ∀ j < len, o.vol.fatsize.checkClust (chain j) = false
  fits : ∀ j < len, o.vol.dataSect + (chain j - 1) * o.vol.clustSize ≤ 2 ^ 32
  link : ∀ j, j + 1 < len → o.vol.nextClust (chain j) = chain (j + 1)

/-- The byte at a position of the file. -/
def fileByte (v : Volume) (chain : ℕ → ℕ) (p : ℕ) : UInt8 :=
  v.disk (v.clusterAddr (chain (p / v.bytesperclust)) + p % v.bytesperclust)

/-- The first `m` links read as they should. -/
def LinksTo (v : Volume) (chain : ℕ → ℕ) (len m : ℕ) : Prop :=
  ∀ j < m, j + 1 < len → v.fatEntry (chain j) = chain (j + 1)

/-- All transfers are complete. -/
def noFault : Fault := fun _ => none

variable {o : Opened} {v : Volume} {chain : ℕ → ℕ} {len : ℕ} {s : FileState}

theorem dvd_bytesperclust (v : Volume) : 512 ∣ v.bytesperclust := dvd_mul_left 512 _

theorem extMmcRead_noFault (io : Io) (start n need : ℕ) (mem : ℕ → UInt8) (a : ℕ) :
    (extMmcRead v noFault io start n need mem a).1 = store mem a
    (load v.disk (start * 512) (n * 512)) := by
  rw [extMmcRead]
  simp [noFault]

/-! ## The caches -/

/-- The window of the FAT and the copy of a cluster are what they are labelled as. -/
structure Cached (v : Volume) (s : FileState) : Prop where
  fat : ∀ b, s.fatbufnum = some b → ∀ i < 3072, s.fatbuf i = v.disk ((b * 6 + v.fatSect) * 512 + i)
  cluster : 0 < s.clusterIndex → ∀ i < v.bytesperclust, s.clusterBuf i = v.disk
    (v.startsect s.clusterIndex * 512 + i)

/-- A state that differs in the window of the FAT, and in what has been logged. -/
def SameFile (s s' : FileState) : Prop :=
  s'.offset = s.offset ∧ s'.curclust = s.curclust ∧ s'.clusterIndex = s.clusterIndex ∧
    s'.clusterBuf = s.clusterBuf

variable {i n got buf : ℕ} {mem : ℕ → UInt8}

theorem half_eq {buf : ℕ → UInt8} {base a : ℕ} (h : ∀ j < 3072, buf j = v.disk (base + j))
    (ha : 2 * i = a)
    (hlt : a + 2 ≤ 3072) : half buf i = (v.disk (base + a)).toNat + 256 *
      (v.disk (base + (a + 1))).toNat := by
  have hload : load buf a 2 = [v.disk (base + a), v.disk (base + (a + 1))] := by
    simp [load, List.range_succ, h a (by omega), h (a + 1) (by omega)]
  rw [half, ha, hload, ofLe, ofLe, ofLe, Nat.add_zero]

theorem ofLe_load_two (mem : ℕ → UInt8) (a : ℕ) : ofLe (load mem a 2) = (mem a).toNat + 256 *
    (mem (a + 1)).toNat := by
  simp [load, List.range_succ, ofLe]

/-- An entry in the window is the one on the disk. -/
theorem decode_eq (buf : ℕ → UInt8) (b offset : ℕ) (hoff : offset < v.fatsize.bufSize)
    (h : ∀ j < 3072, buf j = v.disk ((b * 6 + v.fatSect) * 512 + j)) :
    decode buf offset v.fatsize = v.fatEntry (b * v.fatsize.bufSize + offset) := by
  rw [Volume.fatEntry]
  cases hsize : v.fatsize with
  | fat32 =>
    rw [hsize, FatSize.bufSize] at hoff
    refine congrArg ofLe (load_congr fun j hj => ?_)
    rw [h _ (by omega), FatSize.bufSize]
    exact congrArg v.disk (by omega)
  | fat16 =>
    rw [hsize, FatSize.bufSize] at hoff
    have haddr : (b * 6 + v.fatSect) * 512 + 2 * offset = v.fatSect * 512 + 2 *
      (b * 1536 + offset) := by omega
    rw [decode, half_eq h rfl (by omega), FatSize.bufSize, ofLe_load_two, ← haddr, add_assoc]
  | fat12 =>
    rw [hsize, FatSize.bufSize] at hoff
    obtain ⟨q, r, hr, rfl⟩ : ∃ q r, r < 4 ∧ offset = 4 * q + r :=
        ⟨offset / 4, offset % 4, by omega, by omega⟩
    obtain ⟨base, hbase⟩ : ∃ base, base = (b * 6 + v.fatSect) * 512 := ⟨_, rfl⟩
    rw [← hbase] at h
    have haddr : v.fatSect * 512 + (b * 2048 + (4 * q + r) + (b * 2048 + (4 * q + r)) / 2) =
        base + (6 * q + (r + r / 2)) := by omega
    -- four entries lie in three words
    have h₀ := half_eq h (show 2 * (3 * q) = 6 * q by omega) (by omega)
    have h₁ := half_eq h (show 2 * (3 * q + 1) = 6 * q + 2 by omega) (by omega)
    have h₂ := half_eq h (show 2 * (3 * q + 2) = 6 * q + 4 by omega) (by omega)
    have hlt : ∀ i, (v.disk (base + (6 * q + i))).toNat < 256 := fun i => UInt8.toNat_lt _
    dsimp only
    rw [decode, FatSize.bufSize, haddr, ofLe_load_two, add_assoc base]
    clear haddr hbase
    obtain rfl | rfl | rfl | rfl : r = 0 ∨ r = 1 ∨ r = 2 ∨ r = 3 := by omega
    · rw [if_pos (by omega), if_pos (by omega), show (4 * q + 0) * 3 / 4 = 3 * q by omega, h₀]
      rfl
    · rw [if_neg (by omega), if_pos (by omega), if_neg (by omega), show (4 * q + 1) * 3 /
        4 = 3 * q by omega,
        show 6 * q + (1 + 1 / 2) = 6 * q + 1 from rfl, show 6 * q + 1 + 1 = 6 * q + 2 from rfl]
      have := UInt8.toNat_lt (v.disk (base + 6 * q))
      have := hlt 2
      omega
    · rw [if_neg (by omega), if_neg (by omega), if_pos (by omega), if_pos (by omega),
        show (4 * q + 2) * 3 / 4 = 3 * q + 1 by omega, h₁, h₂,
        show 6 * q + (2 + 2 / 2) = 6 * q + 3 from rfl, show 6 * q + 3 + 1 = 6 * q + 4 from rfl]
      have := hlt 2
      have := hlt 3
      omega
    · rw [if_neg (by omega), if_neg (by omega), if_neg (by omega), if_neg (by omega),
        show (4 * q + 3) * 3 / 4 = 3 * q + 2 by omega, h₂]

/-- `get_fatent` finds the entry and keeps the caches. -/
theorem getFatent_spec (h : Cached v s) (e : ℕ) (needed : Bool) :
    ∃ s', getFatent v noFault s e needed = (v.fatEntry e, s') ∧ Cached v s' ∧ SameFile s s' := by
  have hoff : e - e / v.fatsize.bufSize * v.fatsize.bufSize < v.fatsize.bufSize := by
    have hdiv := Nat.div_add_mod' e v.fatsize.bufSize
    have hmod : e % v.fatsize.bufSize < v.fatsize.bufSize := Nat.mod_lt e (by cases v.fatsize <;> decide)
    omega
  have hentry := Nat.add_sub_cancel' (Nat.div_mul_le_self e v.fatsize.bufSize)
  rw [getFatent]
  dsimp only
  generalize e / v.fatsize.bufSize = b at *
  by_cases hb : s.fatbufnum = some b
  · rw [if_pos hb]
    exact ⟨s, by rw [decode_eq _ _ _ hoff (h.fat _ hb), hentry], h, rfl, rfl, rfl, rfl⟩
  rw [if_neg hb]
  generalize (if needed then _ else 0) = need
  have hread := extMmcRead_noFault (v := v) s.io (b * 6 + v.fatSect) 6 need s.fatbuf 0
  generalize extMmcRead v noFault s.io (b * 6 + v.fatSect) 6 need s.fatbuf 0 = r at hread ⊢
  have hwindow : ∀ i < 3072, r.1 i = v.disk ((b * 6 + v.fatSect) * 512 + i) := fun i hi => by
    rw [hread, ← store_load_add s.fatbuf v.disk 0 hi, zero_add]
  refine ⟨{ s with fatbuf := r.1, fatbufnum := some b, io := r.2 }, ?_,
    ⟨fun b' hb' => ?_, h.cluster⟩, rfl, rfl, rfl, rfl⟩
  · rw [decode_eq _ _ _ hoff hwindow, hentry]
  · exact Option.some.inj hb' ▸ hwindow

/-- A checked entry is the entry, unless it is refused. -/
theorem checkedEntry_spec (h : Cached v s) (e : ℕ) (needed : Bool) :
    ∃ s', checkedEntry v noFault s e needed =
      (if v.fatsize.checkClust (v.fatEntry e) then none else some (v.fatEntry e), s') ∧
      Cached v s' ∧ SameFile s s' := by
  obtain ⟨s', heq, hcached, hsame⟩ := getFatent_spec h e needed
  rw [checkedEntry, heq]
  exact ⟨_, rfl, ⟨hcached.fat, hcached.cluster⟩, hsame⟩

/-- The copy of a cluster that has been read. -/
theorem cacheCluster_byte (s : FileState) (clust need : ℕ) (hi : i < v.bytesperclust) :
    (cacheCluster v noFault s clust need).clusterBuf i = v.disk (v.startsect clust * 512 + i) := by
  rw [← store_load_add s.clusterBuf v.disk 0 hi, zero_add, cacheCluster, getCluster]
  dsimp only
  rw [extMmcRead_noFault, Nat.div_mul_cancel (dvd_bytesperclust v)]

theorem cacheCluster_cached (h : Cached v s) (clust need : ℕ) :
    Cached v (cacheCluster v noFault s clust need) :=
  ⟨h.fat, fun _ _ hi => cacheCluster_byte s clust need hi⟩

/-- The position of the last byte of a cluster. -/
theorem last_div_mod (v : Volume) (j : ℕ) :
    (j * v.bytesperclust + (v.bytesperclust - 1)) / v.bytesperclust = j ∧
      (j * v.bytesperclust + (v.bytesperclust - 1)) % v.bytesperclust = v.bytesperclust - 1 := by
  have hlt := Nat.sub_one_lt (bytesperclust_pos v).ne'
  rw [mul_comm, Nat.mul_add_div (bytesperclust_pos v), Nat.mul_add_mod, Nat.div_eq_of_lt hlt,
    Nat.mod_eq_of_lt hlt]
  exact ⟨rfl, rfl⟩

theorem and_bytesperclust (v : Volume) (x : ℕ) :
    x &&& (v.bytesperclust - 1) = x % v.bytesperclust := by
  rw [Volume.bytesperclust, Volume.clustSize, show 2 ^ v.clustLog * 512 = 2 ^ (v.clustLog + 9) from
    (pow_add 2 _ 9).symm,
    Nat.and_two_pow_sub_one_eq_mod]

/-! ## What is right -/

/-- The state between two calls. -/
structure Ready (o : Opened) (chain : ℕ → ℕ) (len : ℕ) (s : FileState) : Prop where
  cached : Cached o.vol s
  curclust : s.offset / o.vol.bytesperclust < len → s.curclust = chain (s.offset / o.vol.bytesperclust)

/-- What a read of `n` bytes at position `p` has to give, `got` bytes after it began. -/
structure Delivers (o : Opened) (chain : ℕ → ℕ) (len p n got buf : ℕ) (mem : ℕ → UInt8)
    (r : ℤ × (ℕ → UInt8) × FileState) : Prop where
  ret : r.1 = ((got + n : ℕ) : ℤ)
  mem : r.2.1 = store mem buf (load (fileByte o.vol chain) p n)
  offset : r.2.2.offset = p + n
  ready : Ready o chain len r.2.2

theorem Delivers.prepend {p z : ℕ} {r : ℤ × (ℕ → UInt8) × FileState} (hz : z ≤ n)
    (h : Delivers o chain len (p + z) (n - z) (got + z) (buf + z)
    (store mem buf (load (fileByte o.vol chain) p z)) r) :
    Delivers o chain len p n got buf mem r where
  ret := by rw [h.ret, add_assoc, Nat.add_sub_cancel' hz]
  mem := by
    have happend := store_append mem buf (load (fileByte o.vol chain) p z)
      (load (fileByte o.vol chain) (p + z) (n - z))
    rw [length_load, load_append, Nat.add_sub_cancel' hz] at happend
    rw [h.mem, happend]
  offset := by rw [h.offset, add_assoc, Nat.add_sub_cancel' hz]
  ready := h.ready

/-- A call on the open file; `mem` is the memory when it is made. -/
inductive Call where
  | fseek (offset : ℕ)
  | fread (buf maxsize : ℕ) (mem : ℕ → UInt8)

/-- The call stays in the file. -/
def Call.InFile (o : Opened) (s : FileState) : Call → Prop
  | .fseek offset => offset ≤ o.filesize
  | .fread _ n _ => s.offset + n ≤ o.filesize

def Call.next (o : Opened) (s : FileState) : Call → FileState
  | .fseek offset => (doFatFseek o noFault s offset).2
  | .fread buf n mem => (doFatFread o noFault s buf n mem).2.2

/-- A seek goes to its position. A read delivers the bytes at the position and moves it, or is
refused. -/
def Call.Right (o : Opened) (chain : ℕ → ℕ) (s : FileState) : Call → Prop
  | .fseek offset => (doFatFseek o noFault s offset).1 = 0 ∧
      (doFatFseek o noFault s offset).2.offset = offset
  | .fread buf n mem =>
    let r := doFatFread o noFault s buf n mem
    (Served o s buf n →
      r.1 = n ∧ r.2.1 = store mem buf (load (fileByte o.vol chain) s.offset n) ∧
      r.2.2.offset = s.offset + n) ∧
      (¬ Served o s buf n → r.1 = 0 ∧ r.2.2.offset = s.offset)

/-- Every call is right as long as the calls stay in the file. -/
def CallsRight (o : Opened) (chain : ℕ → ℕ) : FileState → List Call → Prop
  | _, [] => True
  | s, c :: cs => c.InFile o s → c.Right o chain s ∧ CallsRight o chain (c.next o s) cs

/-- The file has just been opened. -/
structure AtStart (o : Opened) (s : FileState) : Prop where
  cached : Cached o.vol s
  offset : s.offset = 0
  curclust : s.curclust = o.headclust

/-! ## The clusters of the file -/

section File

variable (h : o.Chain chain len)

include h

theorem Opened.Chain.lt_len_iff : i < len ↔ i * o.vol.bytesperclust < o.filesize := by
  have hpos := bytesperclust_pos o.vol
  rw [h.length, ← Nat.succ_le_iff, Nat.le_div_iff_mul_le hpos, Nat.succ_mul]
  omega

variable {j offset cur : ℕ}

theorem Opened.Chain.two_le (hj : j < len) : 2 ≤ chain j := by
  have hvalid := h.valid j hj
  simp only [FatSize.checkClust, Bool.or_eq_false_iff, decide_eq_false_iff_not] at hvalid
  omega

theorem Opened.Chain.startsect_eq (hj : j < len) :
    o.vol.startsect (chain j) * 512 = o.vol.clusterAddr (chain j) := by
  have hfits := h.fits j hj
  have hpos : 0 < o.vol.clustSize := Nat.two_pow_pos _
  obtain ⟨c, hc⟩ := Nat.exists_eq_add_of_le' (h.two_le hj)
  rw [hc, show c + 2 - 1 = c + 1 by omega, Nat.succ_mul] at hfits
  rw [hc, Volume.startsect, if_pos (by omega), Volume.clusterAddr, Nat.add_sub_cancel,
    show (o.vol.dataSect : ℤ) - 2 * o.vol.clustSize + (c + 2 : ℕ) * o.vol.clustSize =
      ((o.vol.dataSect + c * o.vol.clustSize : ℕ) : ℤ) by push_cast; ring,
    Int.emod_eq_of_lt (by omega) (by omega), Int.toNat_natCast]

/-- The clusters of a run with consecutive numbers lie one after the other on the disk. -/
theorem Opened.Chain.disk_run {m k : ℕ} (hi : i < len) (hrun : ∀ t < m, chain (i + t) = chain i + t)
    (hk : k < m * o.vol.bytesperclust) :
    o.vol.disk (o.vol.startsect (chain i) * 512 + k) = fileByte o.vol chain
      (i * o.vol.bytesperclust + k) := by
  have hpos := bytesperclust_pos o.vol
  have ht := (Nat.div_lt_iff_lt_mul hpos).mpr hk
  obtain ⟨c, hc⟩ := Nat.exists_eq_add_of_le' (h.two_le hi)
  rw [h.startsect_eq hi, fileByte, mul_comm i, Nat.mul_add_div hpos, Nat.mul_add_mod, hrun _ ht, hc,
    Volume.clusterAddr, Volume.clusterAddr, add_right_comm c 2, Nat.add_sub_cancel, Nat.add_sub_cancel]
  have hsplit := Nat.div_add_mod' k o.vol.bytesperclust
  have hsize : (o.vol.dataSect + (c + k / o.vol.bytesperclust) * o.vol.clustSize) * 512 =
      (o.vol.dataSect + c * o.vol.clustSize) * 512 + k / o.vol.bytesperclust * o.vol.bytesperclust := by
    rw [Volume.bytesperclust]
    ring
  rw [hsize, add_assoc, hsplit]

/-- An entry that is not the next cluster has reserved bits set, and is refused. -/
theorem Opened.Chain.checkClust_of_ne (hj : j + 1 < len)
    (hne : o.vol.fatEntry (chain j) ≠ chain (j + 1)) :
    o.vol.fatsize.checkClust (o.vol.fatEntry (chain j)) = true := by
  have hlink := h.link j hj
  rw [Volume.nextClust] at hlink
  split at hlink
  · rename_i hsize
    simp only [hsize, FatSize.checkClust, Bool.or_eq_true, decide_eq_true_eq]
    omega
  · exact absurd hlink hne

theorem AtStart.ready (hs : AtStart o s) : Ready o chain len s where
  cached := hs.cached
  curclust := by
    rw [hs.offset, hs.curclust, Nat.zero_div]
    exact h.head

/-! ## Seeks -/

theorem seekLoop_spec (hfile : offset ≤ o.filesize)
    (hlinks : LinksTo o.vol chain len (offset / o.vol.bytesperclust)) (fuel : ℕ) :
    ∀ s k cur, Cached o.vol s → (k < len → cur = chain k) → k * o.vol.bytesperclust ≤ offset →
      offset / o.vol.bytesperclust < k + fuel →
      ∃ s', seekLoop o.vol noFault offset fuel s cur (k * o.vol.bytesperclust) = (0, s') ∧
        s'.offset = offset ∧ Ready o chain len s' := by
  have hpos := bytesperclust_pos o.vol
  induction fuel with
  | zero =>
    intro s k cur _ _ hk hfuel
    exact absurd hfuel (((Nat.le_div_iff_mul_le hpos).mpr hk).not_gt)
  | succ fuel ih =>
    intro s k cur hcached hcur hk hfuel
    rw [seekLoop, ← Nat.succ_mul]
    split
    · rename_i hlt
      rw [← Nat.div_eq_of_lt_le hk hlt] at hcur
      have hcached' : Cached o.vol { s with curclust := cur, offset := offset } :=
          ⟨hcached.fat, hcached.cluster⟩
      dsimp only
      split
      · exact ⟨_, rfl, rfl, cacheCluster_cached hcached' _ _, hcur⟩
      · exact ⟨_, rfl, rfl, hcached', hcur⟩
    · rename_i hge
      rw [Nat.succ_mul, not_lt] at hge
      have hklen : k < len := h.lt_len_iff.mpr (by omega)
      obtain ⟨s', heq, hcached', -⟩ := getFatent_spec hcached cur false
      rw [heq]
      refine ih s' (k + 1) _ hcached' (fun hlt => ?_) (by rw [Nat.succ_mul]; exact hge) (by omega)
      rw [hcur hklen, hlinks k ((Nat.le_div_iff_mul_le hpos).mpr (by rw [Nat.succ_mul]; exact hge)) hlt]

theorem doFatFseek_spec (hs : Ready o chain len s) (hfile : offset ≤ o.filesize)
    (hlinks : LinksTo o.vol chain len (offset / o.vol.bytesperclust)) :
    ∃ s', doFatFseek o noFault s offset = (0, s') ∧ s'.offset = offset ∧ Ready o chain len s' := by
  have hsplit := Nat.div_add_mod' s.offset o.vol.bytesperclust
  have hstart : s.offset - s.offset % o.vol.bytesperclust = s.offset / o.vol.bytesperclust *
    o.vol.bytesperclust := by
    omega
  rw [doFatFseek, and_bytesperclust, hstart, if_neg hfile.not_gt]
  split
  · have hloop := seekLoop_spec h hfile hlinks (offset / o.vol.bytesperclust + 1) s 0
      o.headclust hs.cached h.head (by omega) (by omega)
    rwa [zero_mul] at hloop
  split
  · rename_i hge hlt
    have hindex : offset / o.vol.bytesperclust = s.offset / o.vol.bytesperclust :=
      Nat.div_eq_of_lt_le (by omega) (by rw [Nat.succ_mul]; exact hlt)
    exact ⟨_, rfl, rfl, ⟨hs.cached.fat, hs.cached.cluster⟩, by dsimp only; rw [hindex]; exact hs.curclust⟩
  · exact seekLoop_spec h hfile hlinks _ s _ s.curclust hs.cached hs.curclust (by omega)
      ((Nat.lt_succ_self _).trans_le (Nat.le_add_left _ _))

/-! ## Reads -/

theorem readTail_spec (hcached : Cached o.vol s) {act : ℕ}
    (hcur : i < len → cur = chain i) (hact : act < o.vol.bytesperclust)
    (hfile : i * o.vol.bytesperclust + act ≤ o.filesize) :
    Delivers o chain len (i * o.vol.bytesperclust) act got buf mem
      (readTail o noFault s (i * o.vol.bytesperclust) cur buf got act mem) := by
  have hpos := bytesperclust_pos o.vol
  have hindex : (i * o.vol.bytesperclust + act) / o.vol.bytesperclust = i := by
    rw [mul_comm, Nat.mul_add_div hpos, Nat.div_eq_of_lt hact, add_zero]
  rw [readTail]
  split
  · rename_i hzero
    rw [hzero, add_zero] at hindex
    exact ⟨by rw [hzero, add_zero], by rw [hzero, load, List.range_zero, List.map_nil, store_nil],
      by rw [hzero]; rfl, ⟨hcached.fat, hcached.cluster⟩, by dsimp only; rw [hindex]; exact hcur⟩
  · have hi : i < len := h.lt_len_iff.mpr (by omega)
    have hcached' := cacheCluster_cached hcached cur act
    refine ⟨rfl, congrArg (store mem buf) (load_congr fun j hj => ?_), rfl,
      ⟨hcached'.fat, hcached'.cluster⟩, ?_⟩
    · rw [zero_add, cacheCluster_byte _ _ _ (by omega), hcur hi, h.disk_run hi (m := 1)
        (by simp) (by omega)]
    · rw [hindex]
      exact hcur

/-- The cluster at the position is in the copy, or is read into it. -/
theorem firstCluster_spec (hs : Ready o chain len s) (hi : s.offset / o.vol.bytesperclust < len)
    (inClust got : ℕ) : ∃ s', firstCluster o.vol noFault s inClust got = s' ∧ Ready o chain len s' ∧
      s'.offset = s.offset ∧ s'.curclust = s.curclust ∧ ∀ k < o.vol.bytesperclust,
        s'.clusterBuf k = fileByte o.vol chain
        (s.offset / o.vol.bytesperclust * o.vol.bytesperclust + k) := by
  have hcur := hs.curclust hi
  have htwo := h.two_le hi
  have hbyte := fun k hk => h.disk_run hi (m := 1) (k := k) (by simp) (by rwa [one_mul])
  rw [firstCluster]
  split
  · rename_i hindex
    refine ⟨s, rfl, hs, rfl, rfl, fun k hk => ?_⟩
    rw [hs.cached.cluster (by omega) k hk, ← hindex, hcur, hbyte k hk]
  · refine ⟨_, rfl, ⟨cacheCluster_cached hs.cached _ _, hs.curclust⟩, rfl, rfl, fun k hk => ?_⟩
    rw [cacheCluster_byte _ _ _ hk, hcur, hbyte k hk]

/-- A link that is refused stops a read across it. -/
theorem doFatFread_refused (hs : Ready o chain len s) (hi : i + 1 < len)
    (hoffset : s.offset = i * o.vol.bytesperclust + (o.vol.bytesperclust - 1))
    (hbad : o.vol.fatsize.checkClust (o.vol.fatEntry (chain i)) = true) (mem : ℕ → UInt8) :
    (doFatFread o noFault s 511 2 mem).1 = 0 := by
  have hpos := bytesperclust_pos o.vol
  have hsector := Nat.le_of_dvd hpos (dvd_bytesperclust o.vol)
  have hfile := h.lt_len_iff.mp hi
  rw [Nat.succ_mul] at hfile
  obtain ⟨hdiv, hmod⟩ := hoffset ▸ last_div_mod o.vol i
  have hrest : o.vol.bytesperclust - (o.vol.bytesperclust - 1) = 1 := by omega
  obtain ⟨s', heq, hs', hoff, hcur, -⟩ := firstCluster_spec h hs (by omega) (o.vol.bytesperclust - 1) 1
  obtain ⟨s'', heq', -⟩ := checkedEntry_spec hs'.cached (chain i) (decide (1 < 2))
  rw [hbad, ← hdiv, ← hs.curclust (by omega), ← hcur] at heq'
  rw [doFatFread, hmod, hrest]
  dsimp only
  rw [if_neg (by omega), if_neg (by omega), if_neg (by omega), heq, nextEntry, if_neg (by omega), heq']
  rfl

section Links

variable (hlinks : LinksTo o.vol chain len len)

include hlinks

/-- A link that is right is accepted. -/
theorem checkedEntry_link (hcached : Cached o.vol s) (hj : j + 1 < len) (needed : Bool) :
    ∃ s', checkedEntry o.vol noFault s (chain j) needed = (some (chain (j + 1)), s') ∧
      Cached o.vol s' ∧ SameFile s s' := by
  obtain ⟨s', heq, hs⟩ := checkedEntry_spec hcached (chain j) needed
  rw [hlinks j (by omega) hj, h.valid _ hj] at heq
  exact ⟨s', heq, hs⟩

theorem consecutive_spec (i m : ℕ) :
    ∀ l s, Cached o.vol s → i + l + m < len → (∀ t < l + 1, chain (i + t) = chain i + t) →
      ∃ l' s', consecutive o.vol noFault m s (chain (i + l)) (l + 1) =
        (some (chain (i + l'), l' + 1), s') ∧ l' ≤ l + m ∧
        (∀ t < l' + 1, chain (i + t) = chain i + t) ∧ Cached o.vol s' := by
  induction m with
  | zero => exact fun l s hcached _ hrun => ⟨l, s, rfl, le_rfl, hrun, hcached⟩
  | succ m ih =>
    intro l s hcached hlen hrun
    obtain ⟨s', heq, hcached', -⟩ := checkedEntry_link h hlinks hcached
        (show i + l + 1 < len by omega) true
    rw [consecutive, heq]
    dsimp only
    have htwo := h.two_le (show i + l + 1 < len by omega)
    split
    · exact ⟨l, s', rfl, by omega, hrun, hcached'⟩
    obtain ⟨l', s'', heq', hle, hrun', hcached''⟩ := ih (l + 1) s' hcached' (by omega) fun t ht => by
      rcases Nat.lt_succ_iff_lt_or_eq.mp ht with ht | rfl
      · exact hrun t ht
      · have := hrun l (by omega)
        rw [← add_assoc]
        omega
    exact ⟨l', s'', heq', by omega, hrun', hcached''⟩

theorem nextEntry_spec (hcached : Cached o.vol s) (j cur : ℕ) (needed : Bool) :
    ∃ c s', nextEntry o noFault s (chain j) cur ((j + 1) * o.vol.bytesperclust) needed = (some c, s') ∧
      (j + 1 < len → c = chain (j + 1)) ∧ Cached o.vol s' ∧ SameFile s s' := by
  rw [nextEntry]
  split
  · have hlen := h.lt_len_iff (i := j + 1)
    exact ⟨cur, s, rfl, by omega, hcached, rfl, rfl, rfl, rfl⟩
  · rename_i hend
    obtain ⟨s', heq, hs⟩ := checkedEntry_link h hlinks hcached
        (h.lt_len_iff.mpr (Nat.lt_of_not_ge hend)) needed
    exact ⟨_, s', heq, fun _ => rfl, hs⟩

theorem readLoop_spec (fuel : ℕ) : ∀ s i cur buf got act mem, Cached o.vol s →
    (i < len → cur = chain i) →
      i * o.vol.bytesperclust + act ≤ o.filesize → act / o.vol.bytesperclust < fuel →
      Delivers o chain len (i * o.vol.bytesperclust) act got buf mem
        (readLoop o noFault fuel s (i * o.vol.bytesperclust) cur buf got act mem) := by
  have hpos := bytesperclust_pos o.vol
  have hlen := fun i => h.lt_len_iff (i := i)
  set B := o.vol.bytesperclust
  induction fuel with
  | zero => exact fun _ _ _ _ _ _ _ _ _ _ hfuel => absurd hfuel (Nat.not_lt_zero _)
  | succ fuel ih =>
    intro s i cur buf got act mem hcached hcur hfile hfuel
    rw [readLoop]
    split
    · rename_i hact
      exact readTail_spec h hcached hcur hact hfile
    have hone : 0 < act / B := Nat.div_pos (by omega) hpos
    have hle := Nat.div_mul_le_self act B
    have hi : i < len := (hlen _).mpr (by omega)
    have hlast : i + 0 + (act / B - 1) < len := (hlen _).mpr (by
      rw [add_zero, add_mul, Nat.sub_mul]
      omega)
    obtain ⟨l, s', heq, hl, hrun, hcached'⟩ := consecutive_spec h hlinks i _ 0 s hcached hlast (by simp)
    rw [add_zero] at heq
    rw [hcur hi, heq]
    dsimp only
    have hsize : (l + 1) * B ≤ act := (Nat.mul_le_mul_right _ (show l + 1 ≤ act / B by omega)).trans hle
    have hnext : i * B + (l + 1) * B = (i + l + 1) * B := by
      rw [← add_mul, add_assoc]
    have hmem : (getCluster o.vol noFault s'.io (chain i) ((l + 1) * B) ((l + 1) * B) mem buf).1 =
        store mem buf (load (fileByte o.vol chain) (i * B) ((l + 1) * B)) := by
      rw [getCluster, extMmcRead_noFault,
        Nat.div_mul_cancel (Nat.dvd_mul_left_of_dvd (dvd_bytesperclust o.vol) (l + 1))]
      exact congrArg _ (load_congr fun k hk => h.disk_run hi hrun hk)
    generalize getCluster o.vol noFault s'.io _ _ _ mem buf = r at hmem ⊢
    obtain ⟨c, s'', heq', hc, hcached'', -⟩ := nextEntry_spec h hlinks
      (s := { s' with io := r.2 }) ⟨hcached'.fat, hcached'.cluster⟩ (i + l) (chain i)
      (decide ((l + 1) * B < act))
    rw [hnext, heq']
    refine Delivers.prepend hsize ?_
    rw [hnext, ← hmem]
    refine ih s'' (i + l + 1) c _ _ _ _ hcached'' hc (by omega) ?_
    rw [mul_comm, Nat.sub_mul_div]
    omega

theorem readWhole_spec (hcached : Cached o.vol s) (buf got act : ℕ) (mem : ℕ → UInt8)
    (hcur : i < len → cur = chain i) (hfile : i * o.vol.bytesperclust + act ≤ o.filesize) :
    if buf % 512 = 0 then Delivers o chain len (i * o.vol.bytesperclust) act got buf mem
      (readWhole o noFault s (i * o.vol.bytesperclust) cur buf got act mem)
    else readWhole o noFault s (i * o.vol.bytesperclust) cur buf got act mem = (0, mem, s) := by
  rw [readWhole]
  split
  · rename_i halign
    rw [if_neg (not_not.mpr halign)]
    exact readLoop_spec h hlinks _ s i cur buf got act mem hcached hcur hfile (Nat.lt_succ_self _)
  · rfl

/-- A read is served in full, or refused. -/
theorem doFatFread_spec (hs : Ready o chain len s) (buf : ℕ) (mem : ℕ → UInt8)
    (hn : s.offset + n ≤ o.filesize) : (Served o s buf n → Delivers o chain len s.offset n 0 buf mem
      (doFatFread o noFault s buf n mem)) ∧
        (¬ Served o s buf n → (doFatFread o noFault s buf n mem).1 = 0 ∧
        (doFatFread o noFault s buf n mem).2.2.offset = s.offset ∧
        Ready o chain len (doFatFread o noFault s buf n mem).2.2) := by
  have hpos := bytesperclust_pos o.vol
  have hlen := h.lt_len_iff (i := s.offset / o.vol.bytesperclust)
  rw [doFatFread, Served]
  simp only [if_neg (show ¬ o.filesize < s.offset + n by omega)]
  set B := o.vol.bytesperclust
  have hsplit := Nat.div_add_mod' s.offset B
  have hmod := Nat.mod_lt s.offset hpos
  by_cases hzero : s.offset % B = 0
  · have hoffset : s.offset = s.offset / B * B := by omega
    have hwhole := readWhole_spec h hlinks hs.cached buf 0 n mem hs.curclust (hoffset ▸ hn)
    rw [← hoffset] at hwhole
    simp only [if_pos hzero]
    refine ⟨fun halign => ?_, fun halign => ?_⟩
    · rwa [if_pos halign] at hwhole
    · rw [if_neg halign] at hwhole
      rw [hwhole]
      exact ⟨rfl, rfl, hs⟩
  have hi : s.offset / B < len := hlen.mpr (by omega)
  simp only [if_neg hzero]
  generalize hrest : B - s.offset % B = rest at *
  have hload : ∀ s' : FileState, (∀ k < B,
      s'.clusterBuf k = fileByte o.vol chain (s.offset / B * B + k)) → ∀ got ≤ rest,
      load s'.clusterBuf (s.offset % B) got = load (fileByte o.vol chain) s.offset got :=
    fun s' hbyte got hgot => load_congr fun j hj => by rw [hbyte _ (by omega), ← add_assoc, hsplit]
  by_cases hshort : n < rest
  · obtain ⟨s', heq, hs', hoff, hcur, hbyte⟩ := firstCluster_spec h hs hi (s.offset % B) n
    simp only [if_pos hshort, heq, hload s' hbyte n (by omega), hoff]
    refine ⟨fun _ => ⟨by rw [zero_add], rfl, rfl, ⟨hs'.cached.fat, hs'.cached.cluster⟩, fun _ => ?_⟩,
      fun hserved => absurd (.inl hshort) hserved⟩
    have hsame : (s.offset + n) / B = s.offset / B :=
      Nat.div_eq_of_lt_le (by omega) (by rw [Nat.succ_mul]; omega)
    rw [hcur, hsame]
    exact hs.curclust hi
  · obtain ⟨s', heq, hs', hoff, hcur, hbyte⟩ := firstCluster_spec h hs hi (s.offset % B) rest
    have hnext : s.offset + rest = (s.offset / B + 1) * B := by
      rw [Nat.succ_mul]
      omega
    obtain ⟨c, s'', heq', hc, hcached, hoff', hcur', -⟩ := nextEntry_spec h hlinks hs'.cached
      (s.offset / B) s'.curclust (decide (rest < n))
    rw [← hs.curclust hi, ← hcur, ← hnext] at heq'
    simp only [if_neg hshort, heq, hload s' hbyte rest le_rfl, heq', hoff', hoff]
    have hwhole := readWhole_spec h hlinks hcached (buf + rest) rest (n - rest)
      (store mem buf (load (fileByte o.vol chain) s.offset rest)) hc (show _ * B + _ ≤ _ by omega)
    rw [← hnext] at hwhole
    refine ⟨fun hserved => ?_, fun hserved => ?_⟩
    · rw [if_pos (hserved.resolve_left hshort)] at hwhole
      refine Delivers.prepend (not_lt.mp hshort) ?_
      rwa [zero_add]
    · rw [if_neg fun halign => hserved (.inr halign)] at hwhole
      rw [hwhole]
      refine ⟨rfl, hoff'.trans hoff, hcached, fun hlt => ?_⟩
      rw [hoff', hoff] at hlt ⊢
      rw [hcur', hcur, hs.curclust hlt]

theorem callsRight_of_linksTo (calls : List Call) : ∀ s, Ready o chain len s →
    CallsRight o chain s calls := by
  induction calls with
  | nil => exact fun _ _ => trivial
  | cons c cs ih =>
    intro s hs hin
    cases c with
    | fseek offset =>
      obtain ⟨s', heq, hoff, hs'⟩ := doFatFseek_spec h hs hin fun j _ hj => hlinks j (by omega) hj
      rw [Call.Right, Call.next, heq]
      exact ⟨⟨rfl, hoff⟩, ih s' hs'⟩
    | fread buf n mem =>
      obtain ⟨hserved, hrefused⟩ := doFatFread_spec h hlinks hs buf mem hin
      rw [Call.Right, Call.next]
      generalize doFatFread o noFault s buf n mem = r at *
      refine ⟨⟨fun hyes => ⟨(hserved hyes).ret.trans (by rw [zero_add]), (hserved hyes).mem,
        (hserved hyes).offset⟩, fun hno => ⟨(hrefused hno).1, (hrefused hno).2.1⟩⟩, ih _ ?_⟩
      by_cases hyes : Served o s buf n
      · exact (hserved hyes).ready
      · exact (hrefused hyes).2.2

end Links

theorem linksTo_of_callsRight (hright : ∀ s, AtStart o s → ∀ calls, CallsRight o chain s calls) :
    LinksTo o.vol chain len len := by
  intro j
  induction j using Nat.strong_induction_on with
  | _ j ih =>
    intro hj hlen
    -- the links before this one are right, so a seek to the end of its cluster works
    have hpos := bytesperclust_pos o.vol
    have hfile := h.lt_len_iff.mp hlen
    rw [Nat.succ_mul] at hfile
    obtain ⟨hdiv, hmod⟩ := last_div_mod o.vol j
    have hstart : AtStart o ⟨0, o.headclust, none, fun _ => 0, 0, fun _ => 0, 0, []⟩ :=
      ⟨⟨fun _ hnone => (nomatch hnone), fun hzero => absurd hzero (lt_irrefl 0)⟩, rfl, rfl⟩
    obtain ⟨s, heq, hoff, hs⟩ := doFatFseek_spec h (hstart.ready h)
      (show j * o.vol.bytesperclust + (o.vol.bytesperclust - 1) ≤ o.filesize by omega) (by
      rw [hdiv]
      exact fun i hi => ih i hi (hi.trans hj))
    obtain ⟨-, hread⟩ := hright _ hstart [.fseek (j * o.vol.bytesperclust + (o.vol.bytesperclust - 1)),
      .fread 511 2 fun _ => 0] (by rw [Call.InFile]; omega)
    rw [Call.next, heq] at hread
    obtain ⟨hread, -⟩ := hread (by rw [Call.InFile, hoff]; omega)
    by_contra hne
    have hret := doFatFread_refused h hs hlen hoff (h.checkClust_of_ne hlen hne) fun _ => 0
    have hsector := Nat.le_of_dvd hpos (dvd_bytesperclust o.vol)
    have hserved : Served o s 511 2 := by
      rw [Served, hoff, if_neg (by omega)]
      omega
    have hfull : (doFatFread o noFault s 511 2 fun _ => 0).1 = ((2 : ℕ) : ℤ) := (hread.1 hserved).1
    rw [hret] at hfull
    cases hfull

end File

/-- Every sequence of seeks and reads is right exactly if the links read as the next clusters. -/
theorem callsRight_iff (h : o.Chain chain len) :
    (∀ s, AtStart o s → ∀ calls, CallsRight o chain s calls) ↔ LinksTo o.vol chain len len :=
  ⟨linksTo_of_callsRight h, fun hlinks s hs calls => callsRight_of_linksTo h hlinks calls s (hs.ready h)⟩

/-- Clusters 2 and 3 in one chain; the upper byte of the link is given. -/
def sampleVolume (top : UInt8) : Volume where
  disk a := if a = 520 then 3 else if a = 523 then top else 0
  fatsize := .fat32
  fatSect := 1
  rootdirSect := 2
  dataSect := 2
  clustLog := 0

def sampleFile (top : UInt8) : Opened := ⟨sampleVolume top, 2, 1000⟩

theorem sampleFile_chain {top : UInt8} (htop : top = 0 ∨ top = 16) :
    (sampleFile top).Chain (· + 2) 2 := by
  rcases htop with rfl | rfl
  all_goals
    refine ⟨by decide, fun _ => rfl, by decide, by decide, fun j hj => ?_⟩
    obtain rfl : j = 0 := by omega
    decide

theorem callsRight_sampleFile : (sampleFile 0).Chain (· + 2) 2 ∧
    ∀ s, AtStart (sampleFile 0) s → ∀ calls, CallsRight (sampleFile 0) (· + 2) s calls :=
  ⟨sampleFile_chain (.inl rfl), (callsRight_iff (sampleFile_chain (.inl rfl))).mpr fun j _ hj => by
    obtain rfl : j = 0 := by omega
    decide⟩

/-- With a bit in the reserved part of the link, it is refused. -/
theorem not_callsRight_sampleFile : (sampleFile 16).Chain (· + 2) 2 ∧
    ¬ ∀ s, AtStart (sampleFile 16) s → ∀ calls, CallsRight (sampleFile 16) (· + 2) s calls :=
  ⟨sampleFile_chain (.inr rfl), fun h =>
    absurd (linksTo_of_callsRight (sampleFile_chain (.inr rfl)) h 0 (by decide) (by decide)) (by decide)⟩

end UBoot.Burning.Fat
