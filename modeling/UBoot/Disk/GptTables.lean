import UBoot.Disk.PartEfi

/-!
# Tables on a disk

A header and an array of entries form a table if the header describes them correctly; such a table
is found valid. `gpt_restore` leaves two of them, unless they overlap.
-/

namespace UBoot.Disk

open UBoot.Common UBoot.Lib List

/-! ### Fields of a buffer -/

variable {e : GptEntry} {i : ℕ} {x : UInt64} {guid : Guid} {h : GptHeader} {l : List UInt8} {a : ℕ}

section Fields

variable {buf : ℕ → UInt8} {a : ℕ} {l : List UInt8}

theorem u32At_of_contains {x : UInt32} (hc : Contains buf a (leBytes 4 x.toNat ++ l)) :
    u32At buf a = x ∧ Contains buf (a + 4) l := by
  obtain ⟨hx, hl⟩ := hc.ofLe_append x.toNat_lt
  exact ⟨by rw [u32At, hx, UInt32.ofNat_toNat], hl⟩

theorem u64At_of_contains (hc : Contains buf a (leBytes 8 x.toNat ++ l)) :
    u64At buf a = x ∧ Contains buf (a + 8) l := by
  obtain ⟨hx, hl⟩ := hc.ofLe_append x.toNat_lt
  exact ⟨by rw [u64At, hx, UInt64.ofNat_toNat], hl⟩

theorem guidAt_of_contains (hc : Contains buf a (guid.b ++ l)) : guidAt buf a = guid ∧
    Contains buf (a + 16) l := by
  have hsplit := contains_append.mp hc
  have hload := hsplit.1.load_eq
  rw [guid.length_b] at hload hsplit
  exact ⟨by simp only [guidAt, hload], hsplit.2⟩

theorem chars_of_contains {name : List UInt16}
    (hc : Contains buf a (name.flatMap fun c => leBytes 2 c.toNat)) :
    ((range name.length).map fun k => UInt16.ofNat (ofLe (load buf (a + 2 * k) 2))) = name := by
  induction name generalizing a with
  | nil => rfl
  | cons c name ih =>
    obtain ⟨hx, hl⟩ := hc.ofLe_append c.toNat_lt
    rw [length_cons, range_succ_eq_map, map_cons, Nat.add_zero, hx, UInt16.ofNat_toNat, map_map]
    refine congrArg _ (Eq.trans (map_congr_left fun k _ => ?_) (ih hl))
    rw [Function.comp_apply, show a + 2 * (k + 1) = a + 2 + 2 * k by omega]

/-- The header is read back. -/
theorem gptHeaderAt_of_contains (hc : Contains buf 0 h.encode) : gptHeaderAt buf = h := by
  obtain ⟨h0, hc⟩ := u64At_of_contains hc
  obtain ⟨h8, hc⟩ := u32At_of_contains hc
  obtain ⟨h12, hc⟩ := u32At_of_contains hc
  obtain ⟨h16, hc⟩ := u32At_of_contains hc
  obtain ⟨h20, hc⟩ := u32At_of_contains hc
  obtain ⟨h24, hc⟩ := u64At_of_contains hc
  obtain ⟨h32, hc⟩ := u64At_of_contains hc
  obtain ⟨h40, hc⟩ := u64At_of_contains hc
  obtain ⟨h48, hc⟩ := u64At_of_contains hc
  obtain ⟨h56, hc⟩ := guidAt_of_contains hc
  obtain ⟨h72, hc⟩ := u64At_of_contains hc
  obtain ⟨h80, hc⟩ := u32At_of_contains hc
  obtain ⟨h84, hc⟩ := u32At_of_contains hc
  obtain ⟨h88, -⟩ := u32At_of_contains hc
  rw [gptHeaderAt, h0, h8, h12, h16, h20, h24, h32, h40, h48, h56, h72, h80, h84, h88]

/-- An entry is read back. -/
theorem gptEntryAt_of_contains (hc : Contains buf a e.encode) : gptEntryAt buf a = e := by
  obtain ⟨h0, hc⟩ := guidAt_of_contains hc
  obtain ⟨h16, hc⟩ := guidAt_of_contains hc
  obtain ⟨h32, hc⟩ := u64At_of_contains hc
  obtain ⟨h40, hc⟩ := u64At_of_contains hc
  obtain ⟨h48, hc⟩ := u64At_of_contains hc
  have hname := chars_of_contains hc
  rw [e.length_partitionName] at hname
  simp only [gptEntryAt, h0, h16, h32, h40, h48, hname]

theorem length_encode_header (h : GptHeader) : h.encode.length = 92 := by
  simp [GptHeader.encode, GptHeader.front, GptHeader.back, h.diskGuid.length_b]

theorem length_encode_entry (e : GptEntry) : e.encode.length = 128 := by
  simp [GptEntry.encode, e.partitionTypeGuid.length_b, e.uniquePartitionGuid.length_b,
    e.length_partitionName]

end Fields

/-! ### Valid tables -/

section Valid

variable {crc32 : List UInt8 → UInt32} {dev : GptDev} {stack : ℕ → UInt8}
  {disk : Contents} {lba : UInt64} {h : GptHeader} {entries : List UInt8}

/-- The header with its checksum cleared. -/
def GptHeader.cleared (h : GptHeader) : GptHeader := { h with headerCrc32 := 0 }

/-- The checksum is that of the header without it. -/
theorem headerCrc32_withCrc32 (hsize : h.headerSize = 92) (hzero : h.headerCrc32 = 0) :
    (withCrc32 crc32 h).headerCrc32 = crc32 (withCrc32 crc32 h).cleared.encode := by
  have hcleared : (withCrc32 crc32 h).cleared = h := by
    rw [withCrc32, GptHeader.cleared, ← hzero]
  rw [hcleared, withCrc32, hsize]
  exact congrArg crc32 (take_of_length_le (by rw [length_encode_header]; decide))

/-- Clearing the checksum in the buffer. -/
theorem contains_cleared {buf : ℕ → UInt8} (hc : Contains buf 0 h.encode) :
    Contains (store buf 16 [0, 0, 0, 0]) 0 h.cleared.encode := by
  have hfront : h.front.length = 16 := by simp [GptHeader.front]
  rw [GptHeader.encode, contains_append, contains_append, length_leBytes] at hc
  have hzero : leBytes 4 (0 : UInt32).toNat = [0, 0, 0, 0] := by decide
  rw [GptHeader.encode, contains_append, contains_append, GptHeader.cleared]
  rw [hzero]
  refine ⟨?_, ?_, ?_⟩
  · refine hc.1.congr fun i _ hi => store_of_outside _ _ _ (.inl ?_)
    omega
  · exact contains_store _ _ _
  · exact hc.2.2.congr fun i hi _ => store_of_outside _ _ _ (.inr hi)

/-- The blocks of 128 entries. -/
def entryBlkCnt (dev : GptDev) : ℕ := blockCnt dev (128 * 128)

theorem entryBlkCnt_le (dev : GptDev) : entryBlkCnt dev ≤ 32 := by
  have hdiv : (128 * 128 - 1) / dev.blksz ≤ (128 * 128 - 1) / 512 :=
    Nat.div_le_div_left dev.le_blksz (by decide)
  exact Nat.succ_le_succ hdiv

theorem le_entryBufferSize (dev : GptDev) : 128 * 128 ≤ entryBlkCnt dev * dev.blksz := by
  have hpos := dev.le_blksz
  have hlt := Nat.lt_div_mul_add (a := 128 * 128 - 1) (b := dev.blksz) (by omega)
  rw [entryBlkCnt, blockCnt, Nat.add_mul]
  omega

/-- A header at a block that describes an array of entries. -/
structure TableAt (crc32 : List UInt8 → UInt32) (dev : GptDev) (disk : Contents)
    (lba : UInt64) (h : GptHeader) (entries : List UInt8) : Prop where
  header : Contains disk (lba.toNat * dev.blksz) h.encode
  lba_lt : lba.toNat < dev.lba.toNat
  signature : h.signature = gptHeaderSignature
  headerSize : h.headerSize = 92
  headerCrc32 : h.headerCrc32 = crc32 h.cleared.encode
  myLba : h.myLba = lba
  firstUsable : h.firstUsableLba ≤ dev.lba
  lastUsable : h.lastUsableLba ≤ dev.lba
  num : h.numPartitionEntries = 128
  sizeof : h.sizeofPartitionEntry = 128
  length : entries.length = entryBlkCnt dev * dev.blksz
  array : Contains disk (h.partitionEntryLba.toNat * dev.blksz) entries
  array_le : h.partitionEntryLba.toNat + entryBlkCnt dev ≤ dev.lba.toNat
  arrayCrc32 : h.partitionEntryArrayCrc32 = crc32 (entries.take (128 * 128))

theorem headerBuffer_load (hi : i < dev.blksz) (a : ℕ) :
    headerBuffer dev stack (load disk a (1 * dev.blksz)) i = disk (a + i) := by
  rw [headerBuffer, if_pos hi]
  simp [load, getElem?_range hi]

theorem contains_headerBuffer (hc : Contains disk a l) (hlen : l.length ≤ dev.blksz) :
    Contains (headerBuffer dev stack (load disk a (1 * dev.blksz))) 0 l := by
  rw [contains_iff] at hc ⊢
  intro i hi
  rw [zero_add, headerBuffer_load (by omega)]
  exact hc i hi

/-- A table is found valid. -/
theorem TableAt.isGptValid_eq (t : TableAt crc32 dev disk lba h entries) :
    isGptValid crc32 dev stack disk lba = some (h, entries) := by
  have hblk := dev.le_blksz
  have hbuf : Contains (headerBuffer dev stack (load disk (lba.toNat * dev.blksz) (1 * dev.blksz)))
    0 h.encode :=
    contains_headerBuffer t.header (by rw [length_encode_header]; omega)
  have hsize : entriesSize h = 128 * 128 := by
    rw [entriesSize, t.num, t.sizeof]
    rfl
  have hload : load disk (h.partitionEntryLba.toNat * dev.blksz) (entryBlkCnt dev * dev.blksz) =
    entries := by
    rw [← t.length]
    exact t.array.load_eq
  have hclear := (contains_cleared hbuf).load_eq
  rw [length_encode_header] at hclear
  have hvalid : validateGptHeader crc32
      (headerBuffer dev stack (load disk (lba.toNat * dev.blksz) (1 * dev.blksz))) lba dev.lba = true := by
    rw [validateGptHeader, gptHeaderAt_of_contains hbuf, t.headerSize]
    rw [show (92 : UInt32).toNat = 92 from rfl, hclear]
    simp only [decide_eq_true_eq]
    exact ⟨t.signature, t.headerCrc32.symm, t.myLba, t.firstUsable, t.lastUsable⟩
  rw [isGptValid, blockRead, if_pos (Nat.succ_le_of_lt t.lba_lt)]
  simp only [Option.bind_eq_bind, Option.bind_some, hvalid, if_true, gptHeaderAt_of_contains hbuf]
  rw [allocReadGptEntries, hsize, if_neg (by decide), blockRead, ← entryBlkCnt, if_pos t.array_le,
    hload, Option.bind_some, if_pos t.arrayCrc32.symm]

/-- Nothing outside of a table matters. -/
theorem TableAt.congr {disk' : Contents} (t : TableAt crc32 dev disk lba h entries)
    (hheader : ∀ i, lba.toNat * dev.blksz ≤ i → i < (lba.toNat + 1) * dev.blksz → disk' i = disk i)
    (harray : ∀ i, h.partitionEntryLba.toNat * dev.blksz ≤ i →
      i < (h.partitionEntryLba.toNat + entryBlkCnt dev) * dev.blksz → disk' i = disk i) :
    TableAt crc32 dev disk' lba h entries :=
  { t with
    header := t.header.congr fun i hle hlt => hheader i hle (by
      have hblk := dev.le_blksz
      rw [length_encode_header] at hlt
      rw [Nat.succ_mul]
      omega)
    array := t.array.congr fun i hle hlt => harray i hle (by
      rw [t.length] at hlt
      rwa [Nat.add_mul]) }

/-- What a valid table has passed. -/
theorem isGptValid_eq_some {pte : List UInt8}
    (hv : isGptValid crc32 dev stack disk lba = some (h, pte)) :
    h = gptHeaderAt (headerBuffer dev stack (load disk (lba.toNat * dev.blksz) (1 * dev.blksz))) ∧
      h.signature = gptHeaderSignature ∧ h.lastUsableLba ≤ dev.lba ∧ entriesSize h ≠ 0 ∧
      pte = load disk (h.partitionEntryLba.toNat * dev.blksz)
        (blockCnt dev (entriesSize h) * dev.blksz) := by
  simp only [isGptValid, allocReadGptEntries, blockRead, Option.bind_eq_bind, Option.bind_eq_some_iff,
    Option.ite_none_left_eq_some, Option.ite_none_right_eq_some, Option.some.injEq, Prod.mk.injEq] at hv
  obtain ⟨_, ⟨-, rfl⟩, hval, _, ⟨hsize, -, rfl⟩, -, rfl, rfl⟩ := hv
  simp only [validateGptHeader, decide_eq_true_eq] at hval
  exact ⟨rfl, hval.1, hval.2.2.2.2, hsize, rfl⟩

end Valid

/-! ### What `gpt_restore` leaves -/

section Restore

variable {crc32 : List UInt8 → UInt32} {dev : GptDev} {stack : ℕ → UInt8} {disk disk' : Contents}
  {guid : Guid} {parts : List DiskPartition} {filled : List GptEntry}

section

variable (crc32 : List UInt8 → UInt32) (dev : GptDev) (guid : Guid) (filled : List GptEntry)

/-- The two headers. -/
def primaryHeader : GptHeader :=
  checksummed crc32 (blankHeader dev guid) (entryBlocks dev filled)

@[inherit_doc primaryHeader]
def backupHeader : GptHeader :=
  prepareBackupGptHeader crc32 (primaryHeader crc32 dev guid filled)

/-- The disk with the primary table. -/
def withPrimary (stack : ℕ → UInt8) (disk : Contents) (guid : Guid) (filled : List GptEntry) :
    Contents :=
  let mbr := store disk (0 * dev.blksz) (protectiveMbr dev ++ load stack 0 (dev.blksz - 512))
  store (store mbr (1 * dev.blksz) (headerBlock dev (primaryHeader crc32 dev guid filled)))
    (2 * dev.blksz) (entryBlocks dev filled)

/-- The disk with both tables. -/
def restored (stack : ℕ → UInt8) (disk : Contents) (guid : Guid) (filled : List GptEntry) :
    Contents :=
  store (store (withPrimary crc32 dev stack disk guid filled) ((dev.lba - 34 + 1).toNat * dev.blksz)
    (entryBlocks dev filled)) ((dev.lba - 1).toNat * dev.blksz)
    (headerBlock dev (backupHeader crc32 dev guid filled))

end

variable {start : UInt64} {cnt : ℕ} {strGuid : List UInt8}

theorem blockWrite_eq_some {src : List UInt8} (h : blockWrite dev disk start cnt src = some disk') :
    start.toNat + cnt ≤ dev.lba.toNat ∧ disk' = store disk (start.toNat * dev.blksz) src := by
  rw [blockWrite] at h
  split at h
  · exact ⟨by assumption, (Option.some.inj h).symm⟩
  · cases h

/-- A call that succeeds has written everything. -/
theorem gptRestore_eq_some (h : gptRestore crc32 dev stack disk strGuid parts = some disk') :
    ∃ guid filled, gptFillPte (dev.lba - 34) 34 parts = some filled ∧ 2 + entryBlkCnt dev ≤ dev.lba.toNat ∧
      (dev.lba - 34 + 1).toNat + entryBlkCnt dev ≤ dev.lba.toNat ∧
      disk' = restored crc32 dev stack disk guid filled := by
  rw [gptRestore, gptFillHeader] at h
  simp only [Option.bind_eq_bind, Option.bind_eq_some_iff, Option.map_eq_some_iff] at h
  obtain ⟨_, ⟨guid, -, rfl⟩, filled, hfill, hwrite⟩ := h
  rw [writeGptTable] at hwrite
  simp only [Option.bind_eq_bind, Option.bind_eq_some_iff] at hwrite
  obtain ⟨d₁, h₁, d₂, h₂, d₃, h₃, d₄, h₄, h₅⟩ := hwrite
  obtain ⟨-, rfl⟩ := blockWrite_eq_some h₁
  obtain ⟨-, rfl⟩ := blockWrite_eq_some h₂
  obtain ⟨hle₃, rfl⟩ := blockWrite_eq_some h₃
  obtain ⟨hle₄, rfl⟩ := blockWrite_eq_some h₄
  obtain ⟨-, rfl⟩ := blockWrite_eq_some h₅
  exact ⟨guid, filled, hfill, hle₃, hle₄, rfl⟩

theorem blockWrite_of_le (src : List UInt8) (h : start.toNat + cnt ≤ dev.lba.toNat) :
    blockWrite dev disk start cnt src = some (store disk (start.toNat * dev.blksz) src) :=
  if_pos h

/-- A call with partitions and a GUID that are accepted succeeds if the tables are on the disk. -/
theorem gptRestore_eq_restored (hguid : uuidStrToBin strGuid .guid = some guid)
    (hfill : gptFillPte (dev.lba - 34) 34 parts = some filled)
    (hprimary : 2 + entryBlkCnt dev ≤ dev.lba.toNat)
    (hbackup : (dev.lba - 34 + 1).toNat + entryBlkCnt dev ≤ dev.lba.toNat) :
    gptRestore crc32 dev stack disk strGuid parts = some (restored crc32 dev stack disk guid filled) := by
  have hlast : (dev.lba - 1).toNat + 1 ≤ dev.lba.toNat := by
    rw [UInt64.toNat_sub_of_le _ _ (UInt64.le_iff_toNat_le.mpr (show 1 ≤ _ by omega))]
    exact Nat.le_of_eq (Nat.sub_add_cancel (show 1 ≤ _ by omega))
  rw [gptRestore, gptFillHeader, hguid]
  simp only [Option.map_some, Option.bind_eq_bind, Option.bind_some]
  rw [show gptFillPte (blankHeader dev guid).lastUsableLba (blankHeader dev guid).firstUsableLba
    parts = some filled from hfill, Option.bind_some]
  refine Option.bind_eq_some_iff.mpr ⟨_, blockWrite_of_le _ (show 0 + 1 ≤ _ by omega), ?_⟩
  refine Option.bind_eq_some_iff.mpr ⟨_, blockWrite_of_le _ (show 1 + 1 ≤ _ by omega), ?_⟩
  refine Option.bind_eq_some_iff.mpr ⟨_, blockWrite_of_le _ hprimary, ?_⟩
  refine Option.bind_eq_some_iff.mpr ⟨_, blockWrite_of_le _ hbackup, ?_⟩
  exact blockWrite_of_le _ hlast

theorem length_headerBlock (h : GptHeader) : (headerBlock dev h).length = 1 * dev.blksz := by
  have hblk := dev.le_blksz
  rw [headerBlock, length_append, length_encode_header, length_replicate]
  omega

theorem length_entryBlocks (filled : List GptEntry) :
    (entryBlocks dev filled).length = entryBlkCnt dev * dev.blksz := by
  rw [entryBlocks, length_take, length_append, length_replicate]
  exact Nat.min_eq_left (Nat.le_add_left _ _)

/-- A write of whole blocks leaves the other blocks alone. -/
theorem store_blocks_outside {b k c m : ℕ} (hl : l.length = k * dev.blksz)
    (hle : c * dev.blksz ≤ i) (hlt : i < (c + m) * dev.blksz) (h : c + m ≤ b ∨ b + k ≤ c) :
    store disk (b * dev.blksz) l i = disk i := by
  refine store_of_outside _ _ _ ?_
  rw [hl, ← Nat.add_mul]
  rcases h with h | h
  · exact .inl (Nat.lt_of_lt_of_le hlt (Nat.mul_le_mul_right _ h))
  · exact .inr (Nat.le_trans (Nat.mul_le_mul_right _ h) hle)

theorem contains_headerBlock (hc : Contains disk a (headerBlock dev h)) :
    Contains disk a h.encode :=
  (contains_append.mp hc).1

theorem toNat_sub_of_le {y : UInt64} (h : y.toNat ≤ x.toNat) : (x - y).toNat = x.toNat - y.toNat :=
  UInt64.toNat_sub_of_le x y (UInt64.le_iff_toNat_le.mpr h)

/-- Where the backup begins. -/
theorem toNat_backupLba (dev : GptDev) (h : 33 ≤ dev.lba.toNat) :
    (dev.lba - 34 + 1).toNat = dev.lba.toNat - 33 := by
  have hlt := dev.lba.toNat_lt
  rw [UInt64.toNat_add, UInt64.toNat_sub]
  simp only [UInt64.reduceToNat]
  omega

theorem toNat_lastLba (dev : GptDev) (h : 1 ≤ dev.lba.toNat) :
    (dev.lba - 1).toNat = dev.lba.toNat - 1 :=
  toNat_sub_of_le h

theorem lastUsable_le (h : 34 ≤ dev.lba.toNat) : dev.lba - 34 ≤ dev.lba := by
  rw [UInt64.le_iff_toNat_le, toNat_sub_of_le (show (34 : UInt64).toNat ≤ _ from h)]
  exact Nat.sub_le _ _

/-- The checksum of the entries. -/
theorem arrayCrc32_primaryHeader (guid : Guid) :
    (primaryHeader crc32 dev guid filled).partitionEntryArrayCrc32 = crc32
    ((entryBlocks dev filled).take (128 * 128)) := by
  have hsize : ((128 : UInt32) * 128).toNat = 128 * 128 := by decide
  rw [← hsize]
  rfl

theorem contains_primaryHeader :
    Contains (withPrimary crc32 dev stack disk guid filled) (1 * dev.blksz)
      (primaryHeader crc32 dev guid filled).encode := by
  have hwritten := contains_headerBlock (contains_store
    (store disk (0 * dev.blksz) (protectiveMbr dev ++ load stack 0 (dev.blksz - 512))) (1 * dev.blksz)
    (headerBlock dev (primaryHeader crc32 dev guid filled)))
  refine hwritten.congr fun i hle hlt => ?_
  have hblk := dev.le_blksz
  rw [length_encode_header] at hlt
  exact store_blocks_outside (m := 1) (length_entryBlocks filled) hle (by omega) (.inl (by decide))

/-- On a disk with enough blocks the primary table stays. -/
theorem tableAt_primary (hlba : 35 + entryBlkCnt dev ≤ dev.lba.toNat) :
    TableAt crc32 dev (restored crc32 dev stack disk guid filled) 1
      (primaryHeader crc32 dev guid filled) (entryBlocks dev filled) := by
  have hback := toNat_backupLba dev (by omega)
  have hlast := toNat_lastLba dev (by omega)
  have htable : TableAt crc32 dev (withPrimary crc32 dev stack disk guid filled) 1
      (primaryHeader crc32 dev guid filled) (entryBlocks dev filled) :=
    { header := contains_primaryHeader
      lba_lt := show 1 < _ by omega
      signature := rfl
      headerSize := rfl
      headerCrc32 := headerCrc32_withCrc32 rfl rfl
      myLba := rfl
      firstUsable := UInt64.le_iff_toNat_le.mpr (show 34 ≤ _ by omega)
      lastUsable := lastUsable_le (by omega)
      num := rfl
      sizeof := rfl
      length := length_entryBlocks filled
      array := contains_store _ _ _
      array_le := show 2 + _ ≤ _ by omega
      arrayCrc32 := arrayCrc32_primaryHeader guid }
  -- the backup is written behind it
  have hkeep : ∀ b m, b + m ≤ dev.lba.toNat - 33 → ∀ i, b * dev.blksz ≤ i → i < (b + m) * dev.blksz →
      restored crc32 dev stack disk guid filled i = withPrimary crc32 dev stack disk guid filled i := by
    intro b m hb i hle hlt
    rw [restored, store_blocks_outside (length_headerBlock _) hle hlt (.inl (by omega)),
      store_blocks_outside (length_entryBlocks _) hle hlt (.inl (by omega))]
  exact htable.congr (hkeep 1 1 (by omega)) (hkeep 2 (entryBlkCnt dev) (by omega))

/-- The backup header is written last. -/
theorem contains_backupHeader :
    Contains (restored crc32 dev stack disk guid filled) ((dev.lba - 1).toNat * dev.blksz)
      (backupHeader crc32 dev guid filled).encode :=
  contains_headerBlock (contains_store _ _ _)

/-- The backup table is in the last 33 blocks. -/
theorem tableAt_backup (hlba : 34 ≤ dev.lba.toNat) :
    TableAt crc32 dev (restored crc32 dev stack disk guid filled) (dev.lba - 1)
      (backupHeader crc32 dev guid filled) (entryBlocks dev filled) := by
  have hcnt := entryBlkCnt_le dev
  have hback := toNat_backupLba dev (by omega)
  have hlast := toNat_lastLba dev (by omega)
  have hlba' : (backupHeader crc32 dev guid filled).partitionEntryLba = dev.lba - 34 + 1 := rfl
  have harray : (backupHeader crc32 dev guid filled).partitionEntryArrayCrc32 =
    (primaryHeader crc32 dev guid filled).partitionEntryArrayCrc32 := rfl
  exact
    { header := contains_backupHeader
      lba_lt := by omega
      signature := rfl
      headerSize := rfl
      headerCrc32 := headerCrc32_withCrc32 rfl rfl
      myLba := rfl
      firstUsable := UInt64.le_iff_toNat_le.mpr (show 34 ≤ _ by omega)
      lastUsable := lastUsable_le hlba
      num := rfl
      sizeof := rfl
      length := length_entryBlocks filled
      array := by
        rw [hlba']
        refine (contains_store (withPrimary crc32 dev stack disk guid filled) _ _).congr
          fun i hle hlt => ?_
        rw [length_entryBlocks, ← Nat.add_mul] at hlt
        exact store_blocks_outside (length_headerBlock _) hle hlt (.inl (by omega))
      array_le := by
        rw [hlba']
        omega
      arrayCrc32 := harray.trans (arrayCrc32_primaryHeader guid) }

end Restore

/-! ### The entries -/

section Entries

variable {dev : GptDev} {parts : List DiskPartition} {filled : List GptEntry}

/-- The blocks where the partitions begin. -/
def layout : UInt64 → List DiskPartition → List UInt64
  | _, [] => []
  | offset, p :: ps => startLba offset p :: layout (startLba offset p + p.size) ps

/-- The last block of a partition. -/
def endLba (last start : UInt64) (p : DiskPartition) (ps : List DiskPartition) : UInt64 :=
  if ps = [] ∧ p.size = 0 then last else start + p.size - 1

theorem gptFillPte_cons {last offset : UInt64} {p : DiskPartition} {ps : List DiskPartition}
    (h : gptFillPte last offset (p :: ps) = some filled) :
    ∃ guid es, uuidStrToBin p.uuid .std = some guid ∧
      gptFillPte last (startLba offset p + p.size) ps = some es ∧
      filled = entryOf p guid (startLba offset p) (endLba last (startLba offset p) p ps) :: es ∧
      offset ≤ startLba offset p ∧ startLba offset p + p.size < last := by
  rw [gptFillPte] at h
  split at h
  · cases h
  rename_i hstart
  dsimp only at h
  split at h
  · cases h
  rename_i hnext
  split at h
  · cases h
  rename_i guid hguid
  obtain ⟨es, hes, rfl⟩ := Option.map_eq_some_iff.mp h
  refine ⟨guid, es, hguid, hes, rfl, ?_, UInt64.not_le.mp hnext⟩
  rw [startLba]
  split
  · exact UInt64.not_lt.mp fun hlt => hstart ⟨‹_›, hlt⟩
  · exact UInt64.le_refl _

/-- The entry of each partition. -/
theorem getElem?_gptFillPte {last offset : UInt64} (h : gptFillPte last offset parts = some filled)
    (hi : i < parts.length) :
    ∃ guid start, uuidStrToBin parts[i].uuid .std = some guid ∧ (layout offset parts)[i]? = some start ∧
      filled[i]? = some (entryOf parts[i] guid start
      (endLba last start parts[i] (parts.drop (i + 1)))) := by
  induction parts generalizing offset filled i with
  | nil => cases hi
  | cons p ps ih =>
    obtain ⟨guid, es, hguid, hes, rfl, -⟩ := gptFillPte_cons h
    cases i with
    | zero => exact ⟨guid, startLba offset p, hguid, rfl, rfl⟩
    | succ i => exact ih hes (by simpa using hi)

theorem length_flatMap_encode (es : List GptEntry) :
    (es.flatMap GptEntry.encode).length = es.length * 128 := by
  simp [length_encode_entry]

/-- The buffer of the entries holds each of the first 128. -/
theorem contains_entry (dev : GptDev) (hi : i < 128) (he : filled[i]? = some e) :
    Contains (ofList (entryBlocks dev filled) 0) (i * 128) e.encode := by
  obtain ⟨hlt, rfl⟩ := List.getElem?_eq_some_iff.mp he
  have hfront : ((filled.take i).flatMap GptEntry.encode).length = i * 128 := by
    rw [length_flatMap_encode, length_take, Nat.min_eq_left (Nat.le_of_lt hlt)]
  have hsize : (i + 1) * 128 ≤ entryBufferSize dev :=
    Nat.le_trans (Nat.mul_le_mul_right _ (by omega)) (le_entryBufferSize dev)
  have henc := length_encode_entry filled[i]
  obtain ⟨rest, hrest⟩ : ∃ rest, entryBlocks dev filled =
      (filled.take i).flatMap GptEntry.encode ++ (filled[i].encode ++ rest) := by
    have hbytes : filled.flatMap GptEntry.encode = (filled.take i).flatMap GptEntry.encode ++
        (filled[i].encode ++ (filled.drop (i + 1)).flatMap GptEntry.encode) := by
      rw [← flatMap_cons, ← flatMap_append, ← drop_eq_getElem_cons hlt, take_append_drop]
    rw [entryBlocks, hbytes, append_assoc, append_assoc, take_append, take_append,
      take_of_length_le (by omega),
      take_of_length_le (l := filled[i].encode) (by omega)]
    exact ⟨_, rfl⟩
  have hc := contains_ofList (entryBlocks dev filled) (0 : UInt8)
  nth_rewrite 2 [hrest] at hc
  have hc' := (contains_append.mp hc).2
  rw [hfront, zero_add] at hc'
  exact (contains_append.mp hc').1

/-- A partition found in a table. -/
theorem infoFromTable_eq (hnum : h.numPartitionEntries = 128) (hi : i < 128)
    (he : filled[i]? = some e) (htype : e.partitionTypeGuid = partitionBasicDataGuid) :
    infoFromTable dev h (entryBlocks dev filled) (i + 1) = some (infoOf dev e) := by
  have hread := gptEntryAt_of_contains (contains_entry dev hi he)
  rw [infoFromTable, Nat.add_sub_cancel, hread, hnum, htype]
  refine if_neg ?_
  rintro (h | h)
  · exact absurd (show 128 < i + 1 from h) (by omega)
  · cases h

/-- A partition found after `gpt_restore`. -/
theorem getPartitionInfoEfi_restored {crc32 : List UInt8 → UInt32} {stack stack' : ℕ → UInt8}
    {disk : Contents} (hlba : 35 + entryBlkCnt dev ≤ dev.lba.toNat) (hi : i < 128)
    (he : filled[i]? = some e)
    (htype : e.partitionTypeGuid = partitionBasicDataGuid) :
    getPartitionInfoEfi crc32 dev stack' (restored crc32 dev stack disk guid filled) (i + 1) = some
      (infoOf dev e) := by
  have hvalid : isGptValid crc32 dev stack' (restored crc32 dev stack disk guid filled) 1 =
      some (primaryHeader crc32 dev guid filled, entryBlocks dev filled) :=
      (tableAt_primary hlba).isGptValid_eq
  rw [getPartitionInfoEfi, hvalid]
  exact infoFromTable_eq rfl hi he htype

end Entries

end UBoot.Disk
