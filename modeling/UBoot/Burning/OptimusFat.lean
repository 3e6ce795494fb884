import UBoot.Common.LittleEndian
import Mathlib.Data.Int.Notation
import Mathlib.Data.Nat.Bitwise

/-!
# Files on the card

`do_fat_fseek` and `do_fat_fread` of the burner, on one open file. The state has the position, the
cluster at the position, a window of six blocks of the FAT and a copy of one cluster. Transfers are
counted and logged; `fault` says how many blocks a transfer delivers when it falls short. A count is
never negative, so none is taken for an error.
-/

namespace UBoot.Burning.Fat

open UBoot.Common

/-- `mydata->fatsize`. -/
inductive FatSize where
  | fat12
  | fat16
  | fat32
deriving DecidableEq

/-- A volume with sectors of 512 bytes. `dataSect` is the sector of cluster 2, and a cluster has `2
^ clustLog` sectors. -/
structure Volume where
  disk : ℕ → UInt8
  fatsize : FatSize
  fatSect : ℕ
  rootdirSect : ℕ
  dataSect : ℕ
  clustLog : ℕ

/-- `clust_size`. -/
def Volume.clustSize (v : Volume) : ℕ := 2 ^ v.clustLog

/-- `bytesperclust`. -/
def Volume.bytesperclust (v : Volume) : ℕ := v.clustSize * 512

theorem bytesperclust_pos (v : Volume) : 0 < v.bytesperclust := Nat.mul_pos (Nat.two_pow_pos _)
    (by decide)

/-- A file that is open. -/
structure Opened where
  vol : Volume
  headclust : ℕ
  filesize : ℕ

/-- What is noted of a read: a transfer and whether the blocks needed of it arrived, or an entry of
the FAT that was checked. -/
inductive Event where
  | transfer (arrived : Bool)
  | entry (value : ℕ)
deriving DecidableEq

/-- The number of transfers, and the events. -/
structure Io where
  count : ℕ
  log : List Event

/-- `struct file` and the caches. -/
structure FileState where
  offset : ℕ
  curclust : ℕ
  fatbufnum : Option ℕ
  fatbuf : ℕ → UInt8
  clusterIndex : ℕ
  clusterBuf : ℕ → UInt8
  io : Io

/-- How many blocks the transfers deliver; `none` is all of them. -/
abbrev Fault := ℕ → Option ℕ

variable (o : Opened) (v : Volume) (fault : Fault) (s : FileState) (clust offset curclust buf got : ℕ)

/-- `v2_ext_mmc_read` to address `a`; `need` blocks are needed. -/
def extMmcRead (io : Io) (startblock nBlk need : ℕ) (mem : ℕ → UInt8) (a : ℕ) : (ℕ → UInt8) × Io :=
  let k := min nBlk ((fault io.count).getD nBlk)
  (store mem a (load v.disk (startblock * 512) (k * 512)),
    ⟨io.count + 1, io.log ++ [.transfer (need ≤ k)]⟩)

/-- The blocks that hold `len` bytes from byte `a` of the first one on. -/
def blocksFor (a len : ℕ) : ℕ := if len = 0 then 0 else (a + len + 511) / 512

/-! ## The FAT -/

/-- `FAT12BUFSIZE`, `FAT16BUFSIZE` and `FAT32BUFSIZE`: the entries of a window. -/
def FatSize.bufSize : FatSize → ℕ
  | .fat12 => 2048
  | .fat16 => 1536
  | .fat32 => 768

/-- A number of two bytes in the window. -/
def half (buf : ℕ → UInt8) (i : ℕ) : ℕ := ofLe (load buf (2 * i) 2)

/-- The entry at an index of the window. The masks and shifts for 12 bits are written as
divisions. -/
def decode (buf : ℕ → UInt8) (offset : ℕ) : FatSize → ℕ
  | .fat32 => ofLe (load buf (4 * offset) 4)
  | .fat16 => half buf offset
  | .fat12 =>
    let off16 := offset * 3 / 4
    if offset % 4 = 0 then half buf off16 % 0x1000
    else if offset % 4 = 1 then half buf (off16 + 1) % 0x100 * 16 + half buf off16 / 0x1000
    else if offset % 4 = 2 then half buf (off16 + 1) % 0x10 * 256 + half buf off16 / 0x100
    else half buf off16 / 16

/-- Where the bytes of an entry begin in the window, and how many they are. -/
def FatSize.entryBytes : FatSize → ℕ × ℕ
  | .fat32 => (4 * offset, 4)
  | .fat16 => (2 * offset, 2)
  | .fat12 => (offset + offset / 2, 2)

/-- `get_fatent`. `needed` says whether the entry is on the way to a requested byte. -/
def getFatent (entry : ℕ) (needed : Bool) : ℕ × FileState :=
  let bufnum := entry / v.fatsize.bufSize
  let offset := entry - bufnum * v.fatsize.bufSize
  let s :=
    if s.fatbufnum = some bufnum then s
    else
      let (first, len) := v.fatsize.entryBytes offset
      let need := if needed then blocksFor first len else 0
      let (fatbuf, io) := extMmcRead v fault s.io (bufnum * 6 + v.fatSect) 6 need s.fatbuf 0
      { s with fatbuf := fatbuf, fatbufnum := some bufnum, io := io }
  (decode s.fatbuf offset v.fatsize, s)

/-- `CHECK_CLUST`. -/
def FatSize.checkClust (fatsize : FatSize) (x : ℕ) : Bool :=
  x ≤ 1 || (match fatsize with | .fat12 => 0xff0 | .fat16 => 0xfff0 | .fat32 => 0xffffff0) ≤ x

/-- `get_fatent` with the check of its value. -/
def checkedEntry (needed : Bool) : Option ℕ × FileState :=
  let (e, s) := getFatent v fault s clust needed
  (if v.fatsize.checkClust e then none else some e,
    { s with io := { s.io with log := s.io.log ++ [.entry e] } })

/-- `optimus_fat_get_fat_next_entry` for the cluster after `clust`; at the end of the file
`curclust` stays as it is. -/
def nextEntry (offset : ℕ) (needed : Bool) : Option ℕ × FileState :=
  if o.filesize ≤ offset then (some curclust, s) else checkedEntry o.vol fault s clust needed

/-! ## Clusters -/

/-- The sector of a cluster in `get_cluster`, in 32 bits; `data_begin` may be negative. -/
def Volume.startsect (clustnum : ℕ) : ℕ :=
  if 0 < clustnum then (((v.dataSect : ℤ) - 2 * v.clustSize + clustnum * v.clustSize) % 2 ^ 32).toNat
  else v.rootdirSect

/-- `get_cluster`, for a number of whole blocks, of which the first `need` bytes are needed. -/
def getCluster (io : Io) (clustnum size need : ℕ) (mem : ℕ → UInt8) (a : ℕ) : (ℕ → UInt8) × Io :=
  extMmcRead v fault io (v.startsect clustnum) (size / 512) (blocksFor 0 need) mem a

/-- A cluster is read into the copy. -/
def cacheCluster (need : ℕ) : FileState :=
  let (buf, io) := getCluster v fault s.io clust v.bytesperclust need s.clusterBuf 0
  { s with clusterBuf := buf, clusterIndex := clust, io := io }

/-! ## Seeking -/

/-- The loop of `do_fat_fseek`. -/
def seekLoop : ℕ → FileState → ℕ → ℕ → ℤ × FileState
  | 0, s, _, _ => (-1, s)
  | fuel + 1, s, curclust, seeked =>
    if offset < seeked + v.bytesperclust then
      let s := { s with curclust := curclust, offset := offset }
      if offset &&& (v.bytesperclust - 1) ≠ 0 ∧ curclust ≠ s.clusterIndex then
        (0, cacheCluster v fault s curclust 0)
      else (0, s)
    else
      let (next, s) := getFatent v fault s curclust false
      seekLoop fuel s next (seeked + v.bytesperclust)

/-- `do_fat_fseek` from the start of the file. -/
def doFatFseek : ℤ × FileState :=
  let curClusterOffset := s.offset - (s.offset &&& (o.vol.bytesperclust - 1))
  if o.filesize < offset then (-1, s)
  else if offset < s.offset then seekLoop o.vol fault offset (offset / o.vol.bytesperclust + 1) s
    o.headclust 0
  else if offset < curClusterOffset + o.vol.bytesperclust then (0, { s with offset := offset })
  else seekLoop o.vol fault offset (offset / o.vol.bytesperclust + 1) s s.curclust curClusterOffset

/-! ## Reading -/

/-- The search for consecutive clusters, for at most so many more: the last one and their number, or
`none` when an entry is refused. -/
def consecutive : ℕ → FileState → ℕ → ℕ → Option (ℕ × ℕ) × FileState
  | 0, s, endclust, len => (some (endclust, len), s)
  | m + 1, s, endclust, len =>
    match checkedEntry v fault s endclust true with
    | (none, s) => (none, s)
    | (some newclust, s) =>
      if newclust - 1 ≠ endclust then (some (endclust, len), s) else consecutive m s newclust (len + 1)

/-- The bytes in the last cluster, and the end of `do_fat_fread`. -/
def readTail (actsize : ℕ) (mem : ℕ → UInt8) : ℤ × (ℕ → UInt8) × FileState :=
  if actsize = 0 then (got, mem, { s with offset := offset, curclust := curclust })
  else
    let s := cacheCluster o.vol fault s curclust actsize
    (((got + actsize : ℕ) : ℤ), store mem buf (load s.clusterBuf 0 actsize),
      { s with offset := offset + actsize, curclust := curclust })

/-- The loop over whole clusters of `do_fat_fread`. -/
def readLoop : ℕ → FileState → ℕ → ℕ → ℕ → ℕ → ℕ → (ℕ → UInt8) → ℤ × (ℕ → UInt8) × FileState
  | 0, s, _, _, _, _, _, mem => (0, mem, s)
  | fuel + 1, s, offset, curclust, buf, got, actsize, mem =>
    if actsize < o.vol.bytesperclust then readTail o fault s offset curclust buf got actsize mem
    else
      match consecutive o.vol fault (actsize / o.vol.bytesperclust - 1) s curclust 1 with
      | (none, s) => (got, mem, { s with offset := offset, curclust := curclust })
      | (some (endclust, len), s) =>
        let size := len * o.vol.bytesperclust
        let (mem, io) := getCluster o.vol fault s.io curclust size size mem buf
        match nextEntry o fault { s with io := io } endclust curclust (offset + size) (size < actsize) with
        | (none, s) => (0, mem, s)
        | (some next, s) => readLoop fuel s (offset + size) next (buf + size) (got + size)
            (actsize - size) mem

/-- `do_fat_fread` from a cluster boundary on. -/
def readWhole (actsize : ℕ) (mem : ℕ → UInt8) : ℤ × (ℕ → UInt8) × FileState :=
  if buf % 512 ≠ 0 then (0, mem, s)
  else readLoop o fault (actsize / o.vol.bytesperclust + 1) s offset curclust buf got actsize mem

/-- The cluster at the position is read into the copy, unless it is there; `got` bytes from
`inClust` on are needed. -/
def firstCluster (inClust got : ℕ) : FileState :=
  if s.curclust = s.clusterIndex then s else cacheCluster v fault s s.curclust
    (if got = 0 then 0 else inClust + got)

/-- `do_fat_fread` to address `buf`: the return value and the memory. -/
def doFatFread (maxsize : ℕ) (mem : ℕ → UInt8) : ℤ × (ℕ → UInt8) × FileState :=
  let inClust := s.offset % o.vol.bytesperclust
  let rest := o.vol.bytesperclust - inClust
  if o.filesize < s.offset + maxsize then (0, mem, s)
  else if inClust = 0 then readWhole o fault s s.offset s.curclust buf 0 maxsize mem
  else if maxsize < rest then
    let s := firstCluster o.vol fault s inClust maxsize
    (maxsize, store mem buf (load s.clusterBuf inClust maxsize), { s with offset := s.offset + maxsize })
  else
    let s := firstCluster o.vol fault s inClust rest
    let mem := store mem buf (load s.clusterBuf inClust rest)
    match nextEntry o fault s s.curclust s.curclust (s.offset + rest) (rest < maxsize) with
    | (none, s) => (0, mem, s)
    | (some next, s) => readWhole o fault s (s.offset + rest) next (buf + rest) rest (maxsize - rest) mem

/-- The buffer is aligned where the first whole cluster goes, or the read ends before. -/
def Served (n : ℕ) : Prop :=
  let inClust := s.offset % o.vol.bytesperclust
  if inClust = 0 then buf % 512 = 0
  else n < o.vol.bytesperclust - inClust ∨ (buf + (o.vol.bytesperclust - inClust)) % 512 = 0

end UBoot.Burning.Fat
