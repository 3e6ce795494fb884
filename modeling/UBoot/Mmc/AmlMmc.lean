import UBoot.Mmc.Partitions
import UBoot.Net.Tftp

/-!
# The `amlmmc` command

`amlmmc read` and `amlmmc write` of `do_amlmmcops`. A byte offset and a byte size become a block
number, a count and a rest of bytes; the rest is transferred through a buffer of one block. Blocks
have 512 bytes. A block transfer is correct if it lies within the device, and may fail for any other
reason.
-/

namespace UBoot.Mmc

open UBoot.Common

/-- The devices by number, each with its number of blocks, the partition table, and the CPU
family. -/
structure AmlMmc where
  lba : ℕ → Option ℕ
  find : List UInt8 → Option Partition
  bootDev : ℕ
  familyIsGxl : Bool

/-- The contents of the devices and of memory. -/
structure AmlState where
  disk : ℕ → ℕ → UInt8
  mem : ℕ → UInt8

/-- What happens to go well: the transfer of the whole blocks, the transfers of the last block,
`malloc`. -/
structure Luck where
  whole : Bool
  tailRead : Bool
  tailWrite : Bool
  malloc : Bool

section

variable (cfg : AmlMmc) (luck : Luck) (s : AmlState) (lba dev : ℕ)

/-- `isstring`: some character is neither a hexadecimal digit nor an `x`. -/
def isstring (p : List UInt8) : Bool :=
  p.any fun b => !((48 ≤ b && b ≤ 57) || (97 ≤ b && b ≤ 102) || (65 ≤ b && b ≤ 70) || b == 120 || b == 88)

/-- What is transferred: a device (negative if there is none), the first block, the count and the
rest. -/
structure AmlTarget where
  dev : ℤ
  blk : ℕ
  cnt : ℕ
  szByte : ℕ
deriving DecidableEq

variable (t : AmlTarget) (name : List UInt8) (addr offset size : ℕ)

/-- `get_off_size`, with the results that are set before if the partition is not found. -/
def getOffSize : ℕ × ℕ × ℕ :=
  match cfg.find name with
  | none => (0, 0, 0)
  | some part => ((part.offset + offset) % 2 ^ 64 / 512, size / 512, size - size / 512 * 512)

/-- `find_dev_num_by_partition_name`. -/
def findDevNumByPartitionName : ℤ :=
  if name = nameBytes "card" then 0 else if (cfg.find name).isSome then 1 else -1

/-- The arguments of `amlmmc`. A name that could be a number is taken for the number of a device,
and the offset and the size for block numbers. -/
def amlTarget (write : Bool) (name : List UInt8) (offset size : ℕ) : AmlTarget :=
  if isstring name then
    if name = nameBytes "card" then ⟨0, offset / 512, size / 512, size - size / 512 * 512⟩
    else if write ∧ name = nameBytes "bootloader" then
      ⟨cfg.bootDev, if cfg.familyIsGxl then 1 else 0, 0x1000, 0⟩
    else
      let r := getOffSize cfg name offset size
      ⟨findDevNumByPartitionName cfg name, r.1, r.2.1, r.2.2⟩
  else ⟨Int.bmod (UBoot.Net.simpleStrtoul name) (2 ^ 32), offset, size, 0⟩

/-- Write to one device. -/
def AmlState.storeDisk (a : ℕ) (l : List UInt8) : AmlState :=
  { s with disk := fun d => if d = dev then store (s.disk d) a l else s.disk d }

/-- `block_read`: the number of blocks read, and the state after it. -/
def blockRead (ok : Bool) (lba dev blk cnt addr : ℕ) : ℕ × AmlState :=
  if ok ∧ blk + cnt ≤ lba then
    (cnt, { s with mem := store s.mem addr (load (s.disk dev) (blk * 512) (cnt * 512)) })
  else (0, s)

/-- `block_write`. -/
def blockWrite (ok : Bool) (lba dev blk cnt : ℕ) (src : List UInt8) : ℕ × AmlState :=
  if ok ∧ blk + cnt ≤ lba then (cnt, s.storeDisk dev (blk * 512) src) else (0, s)

/-- The transfers of `amlmmc read`: whether it returns 0, and the state after it. The buffer is no
part of the memory. -/
def readTarget (t : AmlTarget) : Bool × AmlState :=
  let n := blockRead s luck.whole lba dev t.blk t.cnt addr
  if n.1 = t.cnt ∧ t.szByte ≠ 0 then
    if ¬ luck.malloc then (false, n.2)
    else if ¬ (luck.tailRead ∧ t.blk + t.cnt + 1 ≤ lba) then (false, n.2)
    else
      let tmp := load (n.2.disk dev) ((t.blk + t.cnt) * 512) 512
      (true, { n.2 with mem := store n.2.mem (addr + t.cnt * 512) (tmp.take t.szByte) })
  else (n.1 = t.cnt, n.2)

/-- The transfers of `amlmmc write`. -/
def writeTarget (t : AmlTarget) : Bool × AmlState :=
  let n := blockWrite s luck.whole lba dev t.blk t.cnt (load s.mem addr (t.cnt * 512))
  if n.1 = t.cnt ∧ t.szByte ≠ 0 then
    if ¬ luck.malloc then (false, n.2)
    else if ¬ (luck.tailRead ∧ t.blk + t.cnt + 1 ≤ lba) then (false, n.2)
    else
      let tmp := load s.mem (addr + t.cnt * 512) t.szByte ++
        (load (n.2.disk dev) ((t.blk + t.cnt) * 512) 512).drop t.szByte
      let last := blockWrite n.2 luck.tailWrite lba dev (t.blk + t.cnt) 1 tmp
      (last.1 = 1, last.2)
  else (n.1 = t.cnt, n.2)

/-- The device of a command is looked up before anything is transferred. -/
def onDevice (transfer : ℕ → ℕ → Bool × AmlState) : Bool × AmlState :=
  if t.dev < 0 then (false, s)
  else
    match cfg.lba t.dev.toNat with
    | none => (false, s)
    | some lba => transfer lba t.dev.toNat

/-- `amlmmc read`. -/
def amlmmcRead : Bool × AmlState :=
  let t := amlTarget cfg false name offset size
  onDevice cfg s t fun lba dev => readTarget luck s lba dev addr t

/-- `amlmmc write`. -/
def amlmmcWrite : Bool × AmlState :=
  let t := amlTarget cfg true name offset size
  onDevice cfg s t fun lba dev => writeTarget luck s lba dev addr t

/-! ### What the command is for -/

/-- The two commands. -/
inductive AmlOp
  | read
  | write
deriving DecidableEq

/-- If the command returns 0, exactly the bytes of the given range are transferred; a write changes
nothing outside the partition. -/
def ByteExact (part : Partition) (name : List UInt8) (addr offset size : ℕ) : AmlOp → Prop
  | .read => ∀ luck s, (amlmmcRead cfg luck s name addr offset size).1 = true →
      (amlmmcRead cfg luck s name addr offset size).2 =
        { s with mem := store s.mem addr (load (s.disk 1) (part.offset + offset) size) }
  | .write => ∀ luck s, (amlmmcWrite cfg luck s name addr offset size).1 = true →
      (amlmmcWrite cfg luck s name addr offset size).2 = s.storeDisk 1 (part.offset + offset)
        (load s.mem addr size) ∧ ∀ i, i < part.offset ∨ part.offset + part.size ≤ i →
          (amlmmcWrite cfg luck s name addr offset size).2.disk 1 i = s.disk 1 i

/-- The blocks of the command are on a device. -/
def Transferable : Prop :=
  0 ≤ t.dev ∧ ∃ lba, cfg.lba t.dev.toNat = some lba ∧ (t.cnt ≠ 0 → t.blk + t.cnt ≤ lba) ∧
    (t.szByte ≠ 0 → t.blk + t.cnt + 1 ≤ lba)

/-- The range is made of bytes that the command can name: it begins with a block. -/
def Aligned (part : Partition) (offset : ℕ) : Prop :=
  (part.offset + offset) % 2 ^ 64 / 512 * 512 = part.offset + offset

end

/-! ### What a command does that returns 0 -/

section Effect

variable {cfg : AmlMmc} {luck : Luck} {s : AmlState} {name : List UInt8}
    {addr offset size lba dev blk cnt : ℕ}

/-- How many bytes a command transfers. -/
def AmlTarget.bytes (t : AmlTarget) : ℕ := t.cnt * 512 + t.szByte

/-- The rest of a size is shorter than a block. -/
theorem szByte_lt (cfg : AmlMmc) (write : Bool) (name : List UInt8) (offset size : ℕ) :
    (amlTarget cfg write name offset size).szByte < 512 := by
  rw [amlTarget]
  split
  · split
    · dsimp only
      omega
    · split
      · exact Nat.succ_pos _
      · dsimp only [getOffSize]
        split
        · exact Nat.succ_pos _
        · dsimp only
          omega
  · exact Nat.succ_pos _

theorem AmlState.storeDisk_nil (s : AmlState) (dev a : ℕ) : s.storeDisk dev a [] = s := by
  have hdisk : (fun d => if d = dev then store (s.disk d) a [] else s.disk d) = s.disk := by
    funext d
    split
    · exact store_load (s.disk d) a 0
    · rfl
  rw [AmlState.storeDisk, hdisk]

theorem AmlState.storeDisk_append (s : AmlState) (dev a : ℕ) (l l' : List UInt8) :
    s.storeDisk dev a (l ++ l') = (s.storeDisk dev a l).storeDisk dev (a + l.length) l' := by
  simp only [AmlState.storeDisk, AmlState.mk.injEq, and_true]
  funext d
  by_cases hd : d = dev
  · rw [if_pos hd, if_pos hd, if_pos hd, store_append]
  · rw [if_neg hd, if_neg hd, if_neg hd]

/-- Writing back the rest of a block changes nothing. -/
theorem AmlState.storeDisk_rest (s : AmlState) (dev a n : ℕ) (l : List UInt8) :
    s.storeDisk dev a (l ++ (load (s.disk dev) a n).drop l.length) = s.storeDisk dev a l := by
  simp only [AmlState.storeDisk, AmlState.mk.injEq, and_true]
  funext d
  by_cases hd : d = dev
  · subst hd
    have hrest : ∀ r, load (s.disk d) (a + l.length) r = load (store (s.disk d) a l)
      (a + l.length) r := fun r => by
      refine List.map_congr_left fun i _ => (store_of_outside _ _ _ (.inr ?_)).symm
      omega
    rw [if_pos rfl, if_pos rfl, drop_load, store_append, hrest, store_load]
  · rw [if_neg hd, if_neg hd]

/-- A count that comes back from a read. -/
theorem blockRead_eq {ok : Bool} (h : (blockRead s ok lba dev blk cnt addr).1 = cnt) :
    (cnt ≠ 0 → blk + cnt ≤ lba) ∧ (blockRead s ok lba dev blk cnt addr).2 =
      { s with mem := store s.mem addr (load (s.disk dev) (blk * 512) (cnt * 512)) } := by
  rw [blockRead] at h ⊢
  split at h
  · rename_i hok
    rw [if_pos hok]
    exact ⟨fun _ => hok.2, rfl⟩
  · rename_i hok
    obtain rfl : cnt = 0 := h.symm
    rw [if_neg hok]
    have hnil : store s.mem addr [] = s.mem := store_load s.mem addr 0
    refine ⟨fun hne => absurd rfl hne, ?_⟩
    rw [show load (s.disk dev) (blk * 512) 0 = [] from rfl, hnil]

/-- A count that comes back from a write. -/
theorem blockWrite_eq {ok : Bool} {src : List UInt8} (hsrc : src.length = cnt * 512)
    (h : (blockWrite s ok lba dev blk cnt src).1 = cnt) :
    (cnt ≠ 0 → blk + cnt ≤ lba) ∧ (blockWrite s ok lba dev blk cnt src).2 = s.storeDisk dev
      (blk * 512) src := by
  rw [blockWrite] at h ⊢
  split at h
  · rename_i hok
    rw [if_pos hok]
    exact ⟨fun _ => hok.2, rfl⟩
  · rename_i hok
    obtain rfl : cnt = 0 := h.symm
    rw [if_neg hok, List.eq_nil_of_length_eq_zero (by omega : src.length = 0), AmlState.storeDisk_nil]
    exact ⟨fun hne => absurd rfl hne, rfl⟩

variable {t : AmlTarget} {transfer : ℕ → ℕ → Bool × AmlState}

/-- A transfer that returns 0 is of the whole blocks, and of the block with the rest if there is
one. -/
theorem withRest_eq {n : ℕ × AmlState} {last r : Bool × AmlState}
    (hr : (if n.1 = t.cnt ∧ t.szByte ≠ 0 then
        if ¬ luck.malloc then (false, n.2)
        else if ¬ (luck.tailRead ∧ t.blk + t.cnt + 1 ≤ lba) then (false, n.2)
        else last
      else (decide (n.1 = t.cnt), n.2)) = r) (h : r.1 = true) :
    n.1 = t.cnt ∧ (t.szByte = 0 ∧ r.2 = n.2 ∨ t.szByte ≠ 0 ∧ t.blk + t.cnt + 1 ≤ lba ∧ r = last) := by
  subst hr
  split at h
  · rename_i hrest
    rw [if_pos hrest]
    split at h
    · cases h
    rename_i hmalloc
    rw [if_neg hmalloc]
    split at h
    · cases h
    rename_i hread
    rw [if_neg hread]
    exact ⟨hrest.1, .inr ⟨hrest.2, (not_not.mp hread).2, rfl⟩⟩
  · rename_i hrest
    rw [if_neg hrest]
    have hcnt := of_decide_eq_true h
    exact ⟨hcnt, .inl ⟨by_contra fun hne => hrest ⟨hcnt, hne⟩, rfl⟩⟩

/-- The transfers of a write that returns 0. -/
theorem writeTarget_eq (hrest : t.szByte < 512) (h : (writeTarget luck s lba dev addr t).1 = true) :
    ((t.cnt ≠ 0 → t.blk + t.cnt ≤ lba) ∧ (t.szByte ≠ 0 → t.blk + t.cnt + 1 ≤ lba)) ∧
      (writeTarget luck s lba dev addr t).2 = s.storeDisk dev (t.blk * 512) (load s.mem addr t.bytes) := by
  obtain ⟨hcnt, hdone⟩ := withRest_eq (r := writeTarget luck s lba dev addr t) rfl h
  obtain ⟨hle, hwhole⟩ := blockWrite_eq (length_load _ _ _) hcnt
  rcases hdone with ⟨hzero, heq⟩ | ⟨hne, hread, heq⟩
  · refine ⟨⟨hle, fun hne => absurd hzero hne⟩, ?_⟩
    rw [heq, hwhole, AmlTarget.bytes, hzero, Nat.add_zero]
  refine ⟨⟨hle, fun _ => hread⟩, ?_⟩
  rw [heq, hwhole] at h
  rw [heq, hwhole, AmlTarget.bytes]
  have htmp : ∀ disk : ℕ → UInt8, (load s.mem (addr + t.cnt * 512) t.szByte ++
      (load disk ((t.blk + t.cnt) * 512) 512).drop t.szByte).length = 1 * 512 := by
    intro disk
    rw [List.length_append, List.length_drop, length_load, length_load]
    omega
  have hlast := (blockWrite_eq (htmp _) (of_decide_eq_true h)).2
  have hback := AmlState.storeDisk_rest (s.storeDisk dev (t.blk * 512) (load s.mem addr (t.cnt * 512))) dev
    ((t.blk + t.cnt) * 512) 512 (load s.mem (addr + t.cnt * 512) t.szByte)
  rw [length_load] at hback
  rw [hlast, hback, ← load_append, AmlState.storeDisk_append, length_load, ← Nat.add_mul]

/-- The transfers of a read that returns 0. -/
theorem readTarget_eq (hrest : t.szByte < 512) (h : (readTarget luck s lba dev addr t).1 = true) :
    ((t.cnt ≠ 0 → t.blk + t.cnt ≤ lba) ∧ (t.szByte ≠ 0 → t.blk + t.cnt + 1 ≤ lba)) ∧
      (readTarget luck s lba dev addr t).2 =
        { s with mem := store s.mem addr (load (s.disk dev) (t.blk * 512) t.bytes) } := by
  obtain ⟨hcnt, hdone⟩ := withRest_eq (r := readTarget luck s lba dev addr t) rfl h
  obtain ⟨hle, hwhole⟩ := blockRead_eq hcnt
  rcases hdone with ⟨hzero, heq⟩ | ⟨hne, hread, heq⟩
  · refine ⟨⟨hle, fun hne => absurd hzero hne⟩, ?_⟩
    rw [heq, hwhole, AmlTarget.bytes, hzero, add_zero]
  · refine ⟨⟨hle, fun _ => hread⟩, ?_⟩
    rw [heq, hwhole, AmlTarget.bytes]
    dsimp only
    rw [take_load, Nat.min_eq_left (Nat.le_of_lt hrest), ← load_append, store_append,
      length_load, ← Nat.add_mul]

/-- Everything goes well. -/
def goodLuck : Luck := ⟨true, true, true, true⟩

section

variable (hcnt : t.cnt ≠ 0 → t.blk + t.cnt ≤ lba) (htail : t.szByte ≠ 0 → t.blk + t.cnt + 1 ≤ lba)

include hcnt

/-- The whole blocks are transferred. -/
theorem whole_count (s' : AmlState) :
    (if goodLuck.whole ∧ t.blk + t.cnt ≤ lba then (t.cnt, s') else (0, s)).1 = t.cnt := by
  split
  · rfl
  · rename_i hnot
    by_contra hne
    exact hnot ⟨rfl, hcnt fun hz => hne hz.symm⟩

include htail

theorem writeTarget_goodLuck : (writeTarget goodLuck s lba dev addr t).1 = true := by
  have hwhole : ∀ src, (blockWrite s goodLuck.whole lba dev t.blk t.cnt src).1 = t.cnt :=
    fun _ => whole_count hcnt _
  rw [writeTarget]
  dsimp only
  rw [hwhole]
  split
  · rename_i hrest
    have hle := htail hrest.2
    rw [if_neg (by decide), if_neg (not_not.mpr ⟨rfl, hle⟩), blockWrite, if_pos ⟨rfl, hle⟩]
    rfl
  · exact decide_eq_true rfl

theorem readTarget_goodLuck : (readTarget goodLuck s lba dev addr t).1 = true := by
  have hwhole : (blockRead s goodLuck.whole lba dev t.blk t.cnt addr).1 = t.cnt := whole_count hcnt _
  rw [readTarget]
  rw [hwhole]
  split
  · rename_i hrest
    rw [if_neg (by decide), if_neg (not_not.mpr ⟨rfl, htail hrest.2⟩)]
  · exact decide_eq_true rfl

end

/-- A command returns 0 only if its device exists. -/
theorem onDevice_cases (h : (onDevice cfg s t transfer).1 = true) :
    0 ≤ t.dev ∧ ∃ lba, cfg.lba t.dev.toNat = some lba ∧ onDevice cfg s t transfer = transfer
    lba t.dev.toNat := by
  rw [onDevice] at h ⊢
  by_cases hdev : t.dev < 0
  · rw [if_pos hdev] at h
    cases h
  rw [if_neg hdev] at h ⊢
  cases hlba : cfg.lba t.dev.toNat with
  | none =>
    rw [hlba] at h
    cases h
  | some lba => exact ⟨by omega, lba, rfl, rfl⟩

theorem onDevice_of_lba (hdev : 0 ≤ t.dev)
    (hlba : cfg.lba t.dev.toNat = some lba) : onDevice cfg s t transfer = transfer lba t.dev.toNat := by
  rw [onDevice, if_neg (by omega), hlba]

/-- The effect of a write that returns 0. -/
theorem amlmmcWrite_eq (h : (amlmmcWrite cfg luck s name addr offset size).1 = true) :
    let t := amlTarget cfg true name offset size
    Transferable cfg t ∧ (amlmmcWrite cfg luck s name addr offset size).2 =
      s.storeDisk t.dev.toNat (t.blk * 512) (load s.mem addr t.bytes) := by
  obtain ⟨hdev, lba, hlba, heq⟩ := onDevice_cases h
  rw [amlmmcWrite, heq] at h ⊢
  obtain ⟨hin, heffect⟩ := writeTarget_eq (szByte_lt cfg true name offset size) h
  exact ⟨⟨hdev, lba, hlba, hin⟩, heffect⟩

/-- The effect of a read that returns 0. -/
theorem amlmmcRead_eq (h : (amlmmcRead cfg luck s name addr offset size).1 = true) :
    let t := amlTarget cfg false name offset size
    Transferable cfg t ∧ (amlmmcRead cfg luck s name addr offset size).2 =
      { s with mem := store s.mem addr (load (s.disk t.dev.toNat) (t.blk * 512) t.bytes) } := by
  obtain ⟨hdev, lba, hlba, heq⟩ := onDevice_cases h
  rw [amlmmcRead, heq] at h ⊢
  obtain ⟨hin, heffect⟩ := readTarget_eq (szByte_lt cfg false name offset size) h
  exact ⟨⟨hdev, lba, hlba, hin⟩, heffect⟩

end Effect

/-! ### The law -/

section Law

variable {cfg : AmlMmc} {part : Partition} {name : List UInt8} {addr offset size : ℕ}

/-- A partition of the table, under a name that is not one of the special ones. -/
structure Named (cfg : AmlMmc) (part : Partition) (name : List UInt8) : Prop where
  card : name ≠ nameBytes "card"
  boot : name ≠ nameBytes "bootloader"
  find : cfg.find name = some part

/-- The range of a named partition. -/
theorem amlTarget_named (hp : Named cfg part name) (write : Bool) (hstr : isstring name = true) :
    amlTarget cfg write name offset size =
      ⟨1, (part.offset + offset) % 2 ^ 64 / 512, size / 512, size - size / 512 * 512⟩ := by
  rw [amlTarget, if_pos hstr, if_neg hp.card, if_neg (fun h => hp.boot h.2), getOffSize,
    findDevNumByPartitionName, if_neg hp.card, hp.find]
  rfl

theorem store_ones (a addr n i : ℕ) :
    store (fun _ => (0 : UInt8)) a (load (fun _ => 1) addr n) i = if a ≤ i ∧ i < a + n then 1 else 0 := by
  by_cases hi : a ≤ i ∧ i < a + n
  · obtain ⟨j, rfl⟩ := Nat.exists_eq_add_of_le hi.1
    rw [if_pos hi, store_load_add _ _ _ (by omega)]
  · rw [if_neg hi]
    exact store_of_outside _ _ _ (by rw [length_load]; omega)

/-- Devices full of zeros, and a memory full of ones. -/
def onesToZeros : AmlState := ⟨fun _ _ => 0, fun _ => 1⟩

/-- A write of ones to devices full of zeros shows the bytes that are written. -/
theorem storeDisk_onesToZeros (dev a n d i : ℕ) :
    (onesToZeros.storeDisk dev a (load onesToZeros.mem addr n)).disk d i =
      if d = dev ∧ a ≤ i ∧ i < a + n then 1 else 0 := by
  rw [AmlState.storeDisk]
  dsimp only
  by_cases hd : d = dev
  · rw [if_pos hd, onesToZeros, store_ones]
    simp [hd]
  · rw [if_neg hd, if_neg (fun h => hd h.1)]
    rfl

theorem iff_of_bits_eq {P Q : Prop} [Decidable P] [Decidable Q]
    (h : (if P then (1 : UInt8) else 0) = if Q then 1 else 0) : P ↔ Q := by
  by_cases hP : P
  · by_cases hQ : Q
    · exact iff_of_true hP hQ
    · rw [if_pos hP, if_neg hQ] at h
      cases h
  · by_cases hQ : Q
    · rw [if_neg hP, if_pos hQ] at h
      cases h
    · exact iff_of_false hP hQ

/-- The condition under which the commands are exact. -/
def ExactRange (cfg : AmlMmc) (part : Partition) (name : List UInt8) (offset size : ℕ)
    (op : AmlOp) : Prop :=
  size = 0 ∨ ¬ Transferable cfg (amlTarget cfg false name offset size) ∨
    isstring name = true ∧ Aligned part offset ∧ (op = .write → offset + size ≤ part.size)

theorem amlTarget_write (hp : Named cfg part name) :
    amlTarget cfg true name offset size = amlTarget cfg false name offset size := by
  rw [amlTarget, amlTarget]
  simp only [hp.boot, and_false]

theorem bytes_numeric (offset size : ℕ) (hstr : isstring name = false) :
    (amlTarget cfg false name offset size).bytes = size * 512 := by
  rw [amlTarget, if_neg (by simp [hstr]), AmlTarget.bytes]
  dsimp only
  omega

section

variable (hp : Named cfg part name)

include hp

/-- An aligned range of a named partition begins where it should. -/
theorem target_named (offset size : ℕ) (hstr : isstring name = true) :
    (amlTarget cfg false name offset size).dev.toNat = 1 ∧
      (amlTarget cfg false name offset size).blk * 512 = (part.offset + offset) % 2 ^ 64 / 512 * 512 ∧
      (amlTarget cfg false name offset size).bytes = size := by
  rw [amlTarget_named hp false hstr, AmlTarget.bytes]
  dsimp only
  omega

theorem bytes_eq_zero (offset : ℕ) : (amlTarget cfg false name offset 0).bytes = 0 := by
  cases hstr : isstring name with
  | true => exact (target_named hp offset 0 hstr).2.2
  | false => exact (bytes_numeric offset 0 hstr).trans (Nat.zero_mul 512)

theorem byteExact_write_of (h : ExactRange cfg part name offset size .write) :
    ByteExact cfg part name addr offset size .write := by
  intro luck s hdone
  obtain ⟨hin, heffect⟩ := amlmmcWrite_eq hdone
  rw [amlTarget_write hp] at hin heffect
  rw [heffect]
  rcases h with rfl | hnot | ⟨hstr, halign, hfits⟩
  · -- nothing is written
    rw [bytes_eq_zero hp offset, show load s.mem addr 0 = [] from rfl, AmlState.storeDisk_nil,
      AmlState.storeDisk_nil]
    exact ⟨rfl, fun i _ => rfl⟩
  · exact absurd hin hnot
  · obtain ⟨hdev, hblk, hbytes⟩ := target_named hp offset size hstr
    rw [hbytes, hdev, hblk, halign]
    refine ⟨rfl, fun i hi => ?_⟩
    have hsize := hfits rfl
    exact store_of_outside _ _ _ (by rw [length_load]; omega)

theorem byteExact_read_of (h : ExactRange cfg part name offset size .read) :
    ByteExact cfg part name addr offset size .read := by
  intro luck s hdone
  obtain ⟨hin, heffect⟩ := amlmmcRead_eq hdone
  rw [heffect]
  rcases h with rfl | hnot | ⟨hstr, halign, -⟩
  · rw [bytes_eq_zero hp offset]
    rfl
  · exact absurd hin hnot
  · obtain ⟨hdev, hblk, hbytes⟩ := target_named hp offset size hstr
    rw [hbytes, hdev, hblk, halign]

/-- A write of ones shows a range that is not the right one. -/
theorem exactRange_of_write (h : ByteExact cfg part name addr offset size .write) :
    ExactRange cfg part name offset size .write := by
  by_contra hnot
  rw [ExactRange] at hnot
  push Not at hnot
  obtain ⟨hsize, hin, hrange⟩ := hnot
  have hdone : (amlmmcWrite cfg goodLuck onesToZeros name addr offset size).1 = true := by
    rw [← amlTarget_write hp] at hin
    obtain ⟨hdev, lba, hlba, hcnt, htail⟩ := hin
    rw [amlmmcWrite, onDevice_of_lba hdev hlba]
    exact writeTarget_goodLuck hcnt htail
  obtain ⟨hstate, hout⟩ := h goodLuck onesToZeros hdone
  have heffect := (amlmmcWrite_eq hdone).2
  rw [amlTarget_write hp] at heffect
  have hnamed := target_named hp offset size
  have hnumeric : _ → (amlTarget cfg false name offset size).bytes = _ := bytes_numeric offset size
  generalize amlTarget cfg false name offset size = t at heffect hnamed hnumeric
  -- the bytes that change are the same on both sides
  have hbits : ∀ d i, (d = t.dev.toNat ∧ t.blk * 512 ≤ i ∧ i < t.blk * 512 + t.bytes) ↔
      (d = 1 ∧ part.offset + offset ≤ i ∧ i < part.offset + offset + size) := by
    intro d i
    have hbit := congrFun (congrFun (congrArg AmlState.disk (heffect.symm.trans hstate)) d) i
    rw [storeDisk_onesToZeros, storeDisk_onesToZeros] at hbit
    exact iff_of_bits_eq hbit
  cases hstr : isstring name with
  | true =>
    obtain ⟨hdev, hblk, hbytes⟩ := hnamed hstr
    rw [hdev, hblk] at hbits
    have hfirst := (hbits 1 ((part.offset + offset) % 2 ^ 64 / 512 * 512)).mp ⟨rfl, le_rfl, by omega⟩
    have halign : Aligned part offset :=
      le_antisymm (le_trans (Nat.div_mul_le_self _ _) (Nat.mod_le _ _)) hfirst.2.1
    have hlong := hrange hstr halign
    have hlast := hout (part.offset + offset + size - 1) (by omega)
    rw [hstate, storeDisk_onesToZeros, if_pos ⟨rfl, by omega, by omega⟩] at hlast
    exact absurd (show (1 : UInt8) = 0 from hlast) (by decide)
  | false =>
    rw [hnumeric hstr] at hbits
    have hfirst := (hbits _ (t.blk * 512)).mp ⟨rfl, le_rfl, by omega⟩
    have hlast := (hbits _ (t.blk * 512 + size * 512 - 1)).mp ⟨rfl, by omega, by omega⟩
    omega

/-- A device with a single one shows a range that does not begin where it should; a memory full of
ones shows a range that is too long. -/
theorem exactRange_of_read (h : ByteExact cfg part name addr offset size .read) :
    ExactRange cfg part name offset size .read := by
  by_contra hnot
  rw [ExactRange] at hnot
  push Not at hnot
  obtain ⟨hsize, hin, hrange⟩ := hnot
  have hbytes : ∀ s : AmlState, store s.mem addr (load (s.disk 1) (part.offset + offset) size) =
      store s.mem addr (load (s.disk (amlTarget cfg false name offset size).dev.toNat)
        ((amlTarget cfg false name offset size).blk * 512)
        (amlTarget cfg false name offset size).bytes) := by
    intro s
    have hdone : (amlmmcRead cfg goodLuck s name addr offset size).1 = true := by
      obtain ⟨hdev, lba, hlba, hcnt, htail⟩ := hin
      rw [amlmmcRead, onDevice_of_lba hdev hlba]
      exact readTarget_goodLuck hcnt htail
    exact congrArg AmlState.mem ((h goodLuck s hdone).symm.trans (amlmmcRead_eq hdone).2)
  cases hstr : isstring name with
  | true =>
    obtain ⟨-, hblk, hsize'⟩ := target_named hp offset size hstr
    rw [hblk] at hbytes
    have hfirst := congrFun (hbytes ⟨fun _ a => if a = part.offset + offset then 1 else 0,
      fun _ => 0⟩) (addr + 0)
    rw [store_load_add _ _ _ (by omega), store_load_add _ _ _ (by omega)] at hfirst
    dsimp only [Nat.add_zero] at hfirst
    rw [if_pos rfl] at hfirst
    have halign : Aligned part offset := by
      by_contra hne
      rw [if_neg (by exact hne)] at hfirst
      cases hfirst
    exact absurd (hrange hstr halign).1 (by decide)
  | false =>
    rw [bytes_numeric offset size hstr] at hbytes
    have hlast := congrFun (hbytes ⟨fun _ _ => 0, fun _ => 1⟩) (addr + size)
    rw [store_of_outside _ _ _ (by rw [length_load]; omega), store_load_add _ _ _ (by omega)] at hlast
    exact absurd (show (1 : UInt8) = 0 from hlast) (by decide)

end

/-- A command that returns 0 transfers exactly the bytes it is given iff there are none, or the
transfer cannot succeed, or the name cannot be taken for a number, the range begins with a block
and, for a write, it ends within the partition. -/
theorem byteExact_iff_exactRange (cfg : AmlMmc) (part : Partition) (name : List UInt8)
    (addr offset size : ℕ) (op : AmlOp) (hcard : name ≠ nameBytes "card")
    (hboot : name ≠ nameBytes "bootloader")
    (hfind : cfg.find name = some part) :
    ByteExact cfg part name addr offset size op ↔ ExactRange cfg part name offset size op := by
  cases op with
  | read => exact ⟨exactRange_of_read ⟨hcard, hboot, hfind⟩, byteExact_read_of ⟨hcard, hboot, hfind⟩⟩
  | write => exact ⟨exactRange_of_write ⟨hcard, hboot, hfind⟩, byteExact_write_of ⟨hcard, hboot, hfind⟩⟩

end Law

/-- The partition `boot` of 512 KiB. -/
def bootPart : Partition := ⟨nameBytes "boot", 0x80000, 0x40000, 0⟩

/-- A device of 4096 blocks with this partition only. -/
def bootOnly : AmlMmc where
  lba := fun d => if d = 1 then some 4096 else none
  find := fun n => if n = nameBytes "boot" then some bootPart else none
  bootDev := 1
  familyIsGxl := false

theorem byteExact_iff_exactRange_boot :
    ByteExact bootOnly bootPart (nameBytes "boot") 0 512 1000 .write :=
  (byteExact_iff_exactRange bootOnly bootPart (nameBytes "boot") 0 512 1000 .write (by decide)
    (by decide) rfl).mpr
    (.inr (.inr ⟨by decide, by unfold Aligned; decide, fun _ => by decide⟩))

/-- A write of one byte at offset 1 of the partition changes the byte at offset 0. -/
theorem not_byteExact_boot : ¬ ByteExact bootOnly bootPart (nameBytes "boot") 0 1 1 .write := by
  intro h
  have hdone : (amlmmcWrite bootOnly goodLuck onesToZeros (nameBytes "boot") 0 1 1).1 = true := by
    decide
  have hstate := (h goodLuck onesToZeros hdone).1
  have hbyte := congrFun (congrFun (congrArg AmlState.disk hstate) 1) 0x40000
  exact absurd hbyte (by decide)

end UBoot.Mmc
