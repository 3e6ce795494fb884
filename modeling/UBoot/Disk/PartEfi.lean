import UBoot.Lib.Uuid

/-!
# GUID partition tables

`gpt_restore` writes a table for a list of partitions; `get_partition_info_efi` looks a partition
up. The table consists of a header block and an array of 128 entries, and is on the disk twice. A
transfer succeeds if its blocks are on the disk, and memory can be allocated. The checksum may be
any function.
-/

namespace UBoot.Disk

open UBoot.Common UBoot.Lib

/-- A block device. -/
structure GptDev where
  lba : UInt64
  blksz : ℕ
  le_blksz : 512 ≤ blksz

/-- A device with blocks of 512 bytes. -/
def sectorDev (lba : UInt64) : GptDev := ⟨lba, 512, Nat.le_refl _⟩

/-- The contents of a device. -/
abbrev Contents := ℕ → UInt8

variable (crc32 : List UInt8 → UInt32) (dev : GptDev) (stack : ℕ → UInt8) (disk : Contents)

/-- `BLOCK_CNT`. -/
def blockCnt (size : ℕ) : ℕ := (size - 1) / dev.blksz + 1

/-- `block_write`. -/
def blockWrite (start : UInt64) (cnt : ℕ) (src : List UInt8) : Option Contents :=
  if start.toNat + cnt ≤ dev.lba.toNat then some (store disk (start.toNat * dev.blksz) src) else none

/-- `block_read`. -/
def blockRead (start : UInt64) (cnt : ℕ) : Option (List UInt8) :=
  if start.toNat + cnt ≤ dev.lba.toNat then some (load disk (start.toNat * dev.blksz) (cnt * dev.blksz))
  else none

/-! ### The structures on the disk -/

/-- `gpt_header`. -/
structure GptHeader where
  signature : UInt64
  revision : UInt32
  headerSize : UInt32
  headerCrc32 : UInt32
  reserved1 : UInt32
  myLba : UInt64
  alternateLba : UInt64
  firstUsableLba : UInt64
  lastUsableLba : UInt64
  diskGuid : Guid
  partitionEntryLba : UInt64
  numPartitionEntries : UInt32
  sizeofPartitionEntry : UInt32
  partitionEntryArrayCrc32 : UInt32
deriving DecidableEq

variable (h : GptHeader)

/-- The bytes of a header in front of its checksum, and behind it. -/
def GptHeader.front : List UInt8 :=
  leBytes 8 h.signature.toNat ++ (leBytes 4 h.revision.toNat ++ leBytes 4 h.headerSize.toNat)

@[inherit_doc GptHeader.front]
def GptHeader.back : List UInt8 :=
  leBytes 4 h.reserved1.toNat ++ (leBytes 8 h.myLba.toNat ++ (leBytes 8 h.alternateLba.toNat ++
    (leBytes 8 h.firstUsableLba.toNat ++ (leBytes 8 h.lastUsableLba.toNat ++ (h.diskGuid.b ++
      (leBytes 8 h.partitionEntryLba.toNat ++ (leBytes 4 h.numPartitionEntries.toNat ++
        (leBytes 4 h.sizeofPartitionEntry.toNat ++ leBytes 4 h.partitionEntryArrayCrc32.toNat))))))))

/-- The bytes of a header. -/
def GptHeader.encode : List UInt8 := h.front ++ (leBytes 4 h.headerCrc32.toNat ++ h.back)

/-- `gpt_entry`. -/
structure GptEntry where
  partitionTypeGuid : Guid
  uniquePartitionGuid : Guid
  startingLba : UInt64
  endingLba : UInt64
  attributes : UInt64
  partitionName : List UInt16
  length_partitionName : partitionName.length = 36
deriving DecidableEq

variable (e : GptEntry) (buf : ℕ → UInt8) (a : ℕ)

/-- The bytes of an entry. -/
def GptEntry.encode : List UInt8 :=
  e.partitionTypeGuid.b ++ (e.uniquePartitionGuid.b ++ (leBytes 8 e.startingLba.toNat ++
    (leBytes 8 e.endingLba.toNat ++ (leBytes 8 e.attributes.toNat ++
      e.partitionName.flatMap fun c => leBytes 2 c.toNat))))

/-- A field of 32 bits in a buffer. -/
def u32At : UInt32 := UInt32.ofNat (ofLe (load buf a 4))

/-- A field of 64 bits in a buffer. -/
def u64At : UInt64 := UInt64.ofNat (ofLe (load buf a 8))

/-- A GUID in a buffer. -/
def guidAt : Guid := ⟨load buf a 16, length_load _ _ _⟩

/-- The header at the front of a buffer. -/
def gptHeaderAt : GptHeader where
  signature := u64At buf 0
  revision := u32At buf 8
  headerSize := u32At buf 12
  headerCrc32 := u32At buf 16
  reserved1 := u32At buf 20
  myLba := u64At buf 24
  alternateLba := u64At buf 32
  firstUsableLba := u64At buf 40
  lastUsableLba := u64At buf 48
  diskGuid := guidAt buf 56
  partitionEntryLba := u64At buf 72
  numPartitionEntries := u32At buf 80
  sizeofPartitionEntry := u32At buf 84
  partitionEntryArrayCrc32 := u32At buf 88

/-- The entry at a place of a buffer. -/
def gptEntryAt : GptEntry where
  partitionTypeGuid := guidAt buf a
  uniquePartitionGuid := guidAt buf (a + 16)
  startingLba := u64At buf (a + 32)
  endingLba := u64At buf (a + 40)
  attributes := u64At buf (a + 48)
  partitionName := (List.range 36).map fun k => UInt16.ofNat (ofLe (load buf (a + 56 + 2 * k) 2))
  length_partitionName := by simp

/-! ### Writing a table -/

/-- The part of `disk_partition_t` that `gpt_restore` reads. -/
structure DiskPartition where
  start : UInt64
  size : UInt64
  name : List UInt8
  uuid : List UInt8
  length_name : name.length = 32

/-- `GPT_HEADER_SIGNATURE`. -/
def gptHeaderSignature : UInt64 := 0x5452415020494645

/-- The GUID of all zeros. -/
def unusedGuid : Guid := ⟨List.replicate 16 0, rfl⟩

/-- `PARTITION_BASIC_DATA_GUID`. -/
def partitionBasicDataGuid : Guid :=
  ⟨[0xa2, 0xa0, 0xd0, 0xeb, 0xe5, 0xb9, 0x33, 0x44, 0x87, 0xc0, 0x68, 0xb6, 0xb7, 0x26, 0x99, 0xc7], rfl⟩

/-- `PARTITION_SYSTEM_GUID`. -/
def partitionSystemGuid : Guid :=
  ⟨[0x28, 0x73, 0x2a, 0xc1, 0x1f, 0xf8, 0xd2, 0x11, 0xba, 0x4b, 0x00, 0xa0, 0xc9, 0x3e, 0xc9, 0x3b], rfl⟩

/-- The header that describes a disk, without checksums. -/
def blankHeader (diskGuid : Guid) : GptHeader where
  signature := gptHeaderSignature
  revision := 0x00010000
  headerSize := 92
  headerCrc32 := 0
  reserved1 := 0
  myLba := 1
  alternateLba := dev.lba - 1
  firstUsableLba := 34
  lastUsableLba := dev.lba - 34
  diskGuid
  partitionEntryLba := 2
  numPartitionEntries := 128
  sizeofPartitionEntry := 128
  partitionEntryArrayCrc32 := 0

/-- `gpt_fill_header`. -/
def gptFillHeader (strGuid : List UInt8) : Option GptHeader :=
  (uuidStrToBin strGuid .guid).map (blankHeader dev)

/-- The entry of a partition. -/
def entryOf (p : DiskPartition) (guid : Guid) (startingLba endingLba : UInt64) : GptEntry where
  partitionTypeGuid := partitionBasicDataGuid
  uniquePartitionGuid := guid
  startingLba
  endingLba
  attributes := 0
  partitionName := p.name.map UInt8.toUInt16 ++ List.replicate 4 0
  length_partitionName := by simp [p.length_name]

/-- Where a partition begins, if the ones in front of it end at `offset`. -/
def startLba (offset : UInt64) (p : DiskPartition) :
    UInt64 := if p.start ≠ 0 then p.start else offset

/-- The loop of `gpt_fill_pte`. -/
def gptFillPte (lastUsableLba : UInt64) : UInt64 → List DiskPartition → Option (List GptEntry)
  | _, [] => some []
  | offset, p :: ps =>
    if p.start ≠ 0 ∧ p.start < offset then none
    else
      let next := startLba offset p + p.size
      if next ≥ lastUsableLba then none
      else
        match uuidStrToBin p.uuid .std with
        | none => none
        | some guid =>
          let endingLba := if ps = [] ∧ p.size = 0 then lastUsableLba else next - 1
          (gptFillPte lastUsableLba next ps).map (entryOf p guid (startLba offset p) endingLba :: ·)

/-- The protective MBR. -/
def protectiveMbr : List UInt8 :=
  List.replicate 446 0 ++ [0, 0, 0, 0, 0xee, 0, 0, 0] ++ leBytes 4 1 ++ leBytes 4
    (dev.lba.toUInt32 - 1).toNat ++ List.replicate 48 0 ++ leBytes 2 0xaa55

/-- `set_protective_mbr`. The buffer has 512 bytes; a larger block is filled with what lies behind
it. -/
def setProtectiveMbr : Option Contents :=
  blockWrite dev disk 0 1 (protectiveMbr dev ++ load stack 0 (dev.blksz - 512))

/-- The block of a header. -/
def headerBlock : List UInt8 := h.encode ++ List.replicate (dev.blksz - 92) 0

/-- The size of the buffer for 128 entries. -/
def entryBufferSize : ℕ := blockCnt dev (128 * 128) * dev.blksz

/-- The buffer of the entries. Entries beyond its end go to other memory. -/
def entryBlocks (table : List GptEntry) : List UInt8 :=
  (table.flatMap GptEntry.encode ++ List.replicate (entryBufferSize dev) 0).take (entryBufferSize dev)

/-- The header with its checksum. -/
def withCrc32 : GptHeader :=
  { h with headerCrc32 := crc32 (h.encode.take h.headerSize.toNat) }

/-- `prepare_backup_gpt_header`. -/
def prepareBackupGptHeader : GptHeader :=
  withCrc32 crc32 { h with
    myLba := h.alternateLba
    alternateLba := h.myLba
    partitionEntryLba := h.lastUsableLba + 1
    headerCrc32 := 0 }

/-- The primary header with the checksums of the entries and of itself. -/
def checksummed (entries : List UInt8) : GptHeader :=
  let arrayCrc32 := crc32 (entries.take (h.numPartitionEntries * h.sizeofPartitionEntry).toNat)
  withCrc32 crc32 { h with partitionEntryArrayCrc32 := arrayCrc32 }

/-- `write_gpt_table`. -/
def writeGptTable (table : List GptEntry) : Option Contents := do
  let entries := entryBlocks dev table
  let pteBlkCnt := blockCnt dev (h.numPartitionEntries.toNat * 128)
  let disk ← setProtectiveMbr dev stack disk
  let h := checksummed crc32 h entries
  let disk ← blockWrite dev disk 1 1 (headerBlock dev h)
  let disk ← blockWrite dev disk 2 pteBlkCnt entries
  let h := prepareBackupGptHeader crc32 h
  let disk ← blockWrite dev disk (h.lastUsableLba + 1) pteBlkCnt entries
  blockWrite dev disk h.myLba 1 (headerBlock dev h)

/-- `gpt_restore`: the device afterwards, if the call returns 0. -/
def gptRestore (strDiskGuid : List UInt8) (partitions : List DiskPartition) : Option Contents := do
  let h ← gptFillHeader dev strDiskGuid
  let filled ← gptFillPte h.lastUsableLba h.firstUsableLba partitions
  writeGptTable crc32 dev stack disk h filled

/-! ### Looking a partition up -/

/-- `validate_gpt_header`. -/
def validateGptHeader (lba lastlba : UInt64) : Bool :=
  let h := gptHeaderAt buf
  h.signature = gptHeaderSignature ∧ crc32 (load (store buf 16 [0, 0, 0, 0]) 0 h.headerSize.toNat) =
    h.headerCrc32 ∧ h.myLba = lba ∧ h.firstUsableLba ≤ lastlba ∧ h.lastUsableLba ≤ lastlba

/-- The size of the entries, a product of 32 bits. -/
def entriesSize : ℕ := (h.numPartitionEntries * h.sizeofPartitionEntry).toNat

/-- `alloc_read_gpt_entries`. -/
def allocReadGptEntries : Option (List UInt8) :=
  if entriesSize h = 0 then none
  else blockRead dev disk h.partitionEntryLba (blockCnt dev (entriesSize h))

/-- The buffer of a header, with the stack behind it. -/
def headerBuffer (block : List UInt8) (i : ℕ) : UInt8 :=
  if i < dev.blksz then block.getD i 0 else stack i

/-- `is_gpt_valid`: the header and the entries. -/
def isGptValid (lba : UInt64) : Option (GptHeader × List UInt8) := do
  let block ← blockRead dev disk lba 1
  let buf := headerBuffer dev stack block
  if validateGptHeader crc32 buf lba dev.lba then
    let h := gptHeaderAt buf
    let pte ← allocReadGptEntries dev disk h
    if crc32 (pte.take (entriesSize h)) = h.partitionEntryArrayCrc32 then some (h, pte) else none
  else none

/-- `isprint`. -/
def isprint (c : UInt8) : Bool := (32 ≤ c && c ≤ 126) || 160 ≤ c

/-- A character as `print_efiname` shows it. -/
def shown (c : UInt8) : UInt8 := if c ≠ 0 ∧ ¬ isprint c then 46 else c

/-- `print_efiname`, up to the terminator. This is what is printed into the 32 bytes of a name. -/
def printEfiname : List UInt8 :=
  (e.partitionName.map fun c => shown c.toUInt8).takeWhile (· ≠ 0)

/-- `is_bootable`. -/
def isBootable : Bool :=
  e.attributes &&& 4 ≠ 0 || e.partitionTypeGuid = partitionSystemGuid

/-- What `get_partition_info_efi` fills in. -/
structure PartInfo where
  start : UInt64
  size : UInt64
  blksz : ℕ
  name : List UInt8
  bootable : Bool
  uuid : List UInt8
deriving DecidableEq

/-- The description of an entry. -/
def infoOf : PartInfo where
  start := e.startingLba
  size := e.endingLba + 1 - e.startingLba
  blksz := dev.blksz
  name := printEfiname e
  bootable := isBootable e
  uuid := uuidBinToStr e.uniquePartitionGuid .guid

/-- `get_partition_info_efi` for a table that was found. -/
def infoFromTable (pte : List UInt8) (part : ℕ) : Option PartInfo :=
  let e := gptEntryAt (ofList pte 0) ((part - 1) * 128)
  if part > h.numPartitionEntries.toNat ∨ e.partitionTypeGuid = unusedGuid then none else
    some (infoOf dev e)

/-- `get_partition_info_efi`. -/
def getPartitionInfoEfi (part : ℕ) : Option PartInfo :=
  if part < 1 then none
  else
    match isGptValid crc32 dev stack disk 1 with
    | some (h, pte) => infoFromTable dev h pte part
    | none =>
      match isGptValid crc32 dev stack disk (dev.lba - 1) with
      | some (h, pte) => infoFromTable dev h pte part
      | none => none

end UBoot.Disk
