import Mathlib.Algebra.Group.Int.Defs
import Mathlib.Data.Int.Basic
import UBoot.Common.Memory

/-!
# Keys in the efuses

`key_unify_write` with the operations of efuse keys below it, down to the calls of
`efuse_write_usr`. An efuse key can be written once, so its existence is tested before; the test
reads the key into an allocated buffer and looks for a byte that is not zero.
-/

namespace UBoot.Keymanage

open UBoot.Common

/-- `enum key_manager_dev_e`. -/
inductive KeyManagerDev
  | unknowDev
  | efuseNormal
  | secureKey
  | noramlKey
  | maxDev
deriving DecidableEq

/-- `enum key_manager_df_e`. -/
inductive KeyManagerDf
  | hexdata
  | hexascii
  | allascii
  | maxDf
deriving DecidableEq

/-- A key of the node `/unifykey`. -/
structure KeyItem where
  name : List UInt8
  dev : KeyManagerDev
  datFmt : KeyManagerDf

/-- A key of the node `/efusekey`. -/
structure EfusekeyInfo where
  keyname : List UInt8
  offset : UInt32
  size : UInt32

/-- What both nodes were parsed into. -/
structure KeyConfig where
  keyFlag : Bool
  unifykeyItem : List KeyItem
  initMagic : UInt32
  keyInf : List EfusekeyInfo

/-- The answer of the secure monitor to a read: its return value, the count it stores, and the
contents of the buffer. The contents count only if the read is not complete. -/
structure HalRead where
  ret : Int32
  retcnt : UInt32
  left : ℕ → UInt8

/-- What the hardware and the allocator do during one call. -/
structure Hw where
  malloc : Bool
  read : HalRead
  cfg10 : UInt32
  runCommand : ℤ
  efuseWrite : ℤ
  secukeyWrite : ℤ

/-- The calls that write a key. -/
inductive WriteCall
  | efuseWriteUsr (data : List UInt8) (count offset : UInt32)
  | runCommand (keyname data : List UInt8)
  | secukeyWrite (keyname data : List UInt8)
deriving DecidableEq

section

variable (cfg : KeyConfig) (efuse : ℕ → UInt8) (hal : HalRead) (hw : Hw) (inf : EfusekeyInfo)
  (keyname : List UInt8) (data : List UInt8) (datalen : UInt32)

/-- `SECURE_BOOT_KEY_NAME`. -/
def secureBootKeyName : List UInt8 := "secure_boot_set".toUTF8.data.toList

/-! ### The device of a key -/

/-- `unifykey_item_verify_check`. -/
def unifykeyItemVerifyCheck (item : KeyItem) : Bool := item.dev ≠ .unknowDev && item.datFmt ≠ .maxDf

/-- `keymanage_dts_get_key_device`. -/
def keymanageDtsGetKeyDevice : KeyManagerDev :=
  if cfg.keyFlag then
    match cfg.unifykeyItem.find? fun item => item.name == keyname with
    | none => .maxDev
    | some item => if unifykeyItemVerifyCheck item then item.dev else .maxDev
  else .maxDev

/-! ### The user space of the efuses -/

/-- `_get_cfg_key_inf_byname`. -/
def getCfgKeyInfByname : Option EfusekeyInfo :=
  if cfg.initMagic = 0xee then cfg.keyInf.find? fun inf => inf.keyname == keyname else none

/-- `efuse_read_usr`: the return value, and the buffer. -/
def efuseReadUsr (count offset : UInt32) : Int32 × List UInt8 :=
  (if hal.ret = 0 then hal.retcnt.toInt32 else hal.ret,
    if hal.ret = 0 ∧ hal.retcnt = count then load efuse offset.toNat count.toNat else load
    hal.left 0 count.toNat)

/-- `efuse_usr_api_read_key`: the return value, and the buffer if it is filled. -/
def efuseUsrApiReadKey (bufSz : UInt32) : ℤ × List UInt8 :=
  match getCfgKeyInfByname cfg keyname with
  | none => (209, [])
  | some inf =>
    if inf.size > bufSz ∧ bufSz ≠ 0 then (214, [])
    else
      let r := efuseReadUsr efuse hal inf.size inf.offset
      if r.1 = -1 then (223, r.2) else if r.1.toUInt32 ≠ inf.size then (228, r.2) else (0, r.2)

/-- `efuse_usr_api_write_key`. -/
def efuseUsrApiWriteKey (dataSz : UInt32) : ℤ × List WriteCall :=
  match getCfgKeyInfByname cfg keyname with
  | none => (183, [])
  | some inf =>
    if dataSz ≠ inf.size then (187, [])
    else (if hw.efuseWrite < 0 then 193 else 0, [.efuseWriteUsr data inf.size inf.offset])

/-! ### The operations of efuse keys -/

/-- `keymanage_efuse_size`. -/
def keymanageEfuseSize : UInt32 :=
  match getCfgKeyInfByname cfg keyname with
  | none => 0
  | some inf => inf.size

/-- `keymanage_efuse_read`. -/
def keymanageEfuseRead (bufSz : UInt32) : ℤ × List UInt8 :=
  let cfgSz := keymanageEfuseSize cfg keyname
  if cfgSz > bufSz then (149, []) else efuseUsrApiReadKey cfg efuse hal keyname cfgSz

/-- `keymanage_efuse_exist`. Without a buffer, and after a read that failed, the key does not
exist. -/
def keymanageEfuseExist : Bool :=
  if keyname = secureBootKeyName then hw.cfg10 &&& 0x10 ≠ 0
  else if ¬ hw.malloc then false
  else
    let r := keymanageEfuseRead cfg efuse hw.read keyname (keymanageEfuseSize cfg keyname)
    if r.1 ≠ 0 then false else r.2.any (· ≠ 0)

/-- `keymanage_efuse_write`. -/
def keymanageEfuseWrite : ℤ × List WriteCall :=
  if keyname = secureBootKeyName then (hw.runCommand, [.runCommand keyname data])
  else efuseUsrApiWriteKey cfg hw keyname data datalen

/-- `key_unify_write`: the return value, and the calls that write. The keys of the other devices can
be overwritten. -/
def keyUnifyWrite : ℤ × List WriteCall :=
  match keymanageDtsGetKeyDevice cfg keyname with
  | .efuseNormal =>
    if keymanageEfuseExist cfg efuse hw keyname then (271, [])
    else keymanageEfuseWrite cfg hw keyname data datalen
  | .noramlKey | .secureKey => (hw.secukeyWrite, [.secukeyWrite keyname data])
  | .unknowDev | .maxDev => (263, [])

/-! ### One-time programming -/

/-- Some byte of the key is programmed. -/
def Programmed : Prop :=
  ∃ i < inf.size.toNat, efuse (inf.offset.toNat + i) ≠ 0

/-- A key of which a byte is programmed is not written. -/
def OneTime : Prop :=
  Programmed efuse inf → ∀ d count offset,
    .efuseWriteUsr d count offset ∉ (keyUnifyWrite cfg efuse hw inf.keyname data datalen).2

/-- The return value of the read is the size of the key: either all of it was read, or the error
code happens to be the size. A key of `2 ^ 32 - 1` bytes cannot be read. -/
def Reads : Prop :=
  inf.size ≠ 0xffffffff ∧ if hal.ret = 0 then hal.retcnt = inf.size else hal.ret.toUInt32 = inf.size

/-- The test finds a byte: the buffer can be allocated, the read returns the size, and what it
leaves in the buffer is either the key or something else that is not zero. -/
def Detects : Prop :=
  hw.malloc = true ∧ Reads hw.read inf ∧ (hw.read.ret ≠ 0 → ∃ i < inf.size.toNat, hw.read.left i ≠ 0)

end

section Law

variable {cfg : KeyConfig} {efuse : ℕ → UInt8} {hw : Hw} {inf : EfusekeyInfo} {data : List UInt8}
    {datalen : UInt32}

theorem any_load_ne_zero (mem : ℕ → UInt8) (a n : ℕ) :
    ((load mem a n).any (· ≠ 0)) = true ↔ ∃ i < n, mem (a + i) ≠ 0 := by
  simp [load]

/-- The read of `keymanage_efuse_exist` is the read of the configured key. -/
theorem keymanageEfuseRead_eq (hkey : getCfgKeyInfByname cfg inf.keyname = some inf) :
    keymanageEfuseRead cfg efuse hw.read inf.keyname (keymanageEfuseSize cfg inf.keyname) =
      let r := efuseReadUsr efuse hw.read inf.size inf.offset
      if r.1 = -1 then (223, r.2) else if r.1.toUInt32 ≠ inf.size then (228, r.2) else (0, r.2) := by
  have hsize : keymanageEfuseSize cfg inf.keyname = inf.size := by rw [keymanageEfuseSize, hkey]
  rw [keymanageEfuseRead, hsize]
  simp only [UInt32.lt_irrefl, if_false, efuseUsrApiReadKey, hkey, false_and]

/-- The two tests of the return value. -/
theorem reads_iff (efuse : ℕ → UInt8) (hal : HalRead) (inf : EfusekeyInfo) :
    Reads hal inf ↔ (efuseReadUsr efuse hal inf.size inf.offset).1 ≠ -1 ∧
      (efuseReadUsr efuse hal inf.size inf.offset).1.toUInt32 = inf.size := by
  -- the return value is -1 exactly if it is `2 ^ 32 - 1` as an unsigned number
  have htests : ∀ r : Int32, (inf.size ≠ 0xffffffff ∧ r.toUInt32 = inf.size) ↔
    (r ≠ -1 ∧ r.toUInt32 = inf.size) := by
    intro r
    refine and_congr_left fun hr => ?_
    rw [← hr]
    exact not_congr ⟨fun h => congrArg Int32.ofUInt32 h, fun h => congrArg Int32.toUInt32 h⟩
  rw [Reads, efuseReadUsr]
  split
  · exact htests hal.retcnt.toInt32
  · exact htests hal.ret

section

variable (hname : inf.keyname ≠ secureBootKeyName) (hkey : getCfgKeyInfByname cfg inf.keyname = some inf)

include hname hkey

/-- When the test finds a byte. -/
theorem keymanageEfuseExist_iff :
    keymanageEfuseExist cfg efuse hw inf.keyname = true ↔ hw.malloc = true ∧ Reads hw.read inf ∧
        (efuseReadUsr efuse hw.read inf.size inf.offset).2.any (· ≠ 0) = true := by
  rw [keymanageEfuseExist, if_neg hname, keymanageEfuseRead_eq hkey, reads_iff efuse]
  by_cases hmalloc : hw.malloc = true
  swap
  · rw [if_pos hmalloc]
    exact ⟨fun h => absurd h Bool.false_ne_true, fun h => absurd h.1 hmalloc⟩
  rw [if_neg (not_not.mpr hmalloc)]
  generalize efuseReadUsr efuse hw.read inf.size inf.offset = r
  by_cases hneg : r.1 = -1
  · rw [if_pos hneg]
    exact ⟨fun h => absurd h Bool.false_ne_true, fun h => absurd hneg h.2.1.1⟩
  by_cases hcnt : r.1.toUInt32 = inf.size
  · rw [if_neg hneg, if_neg (not_not.mpr hcnt)]
    exact ⟨fun h => ⟨hmalloc, ⟨hneg, hcnt⟩, h⟩, fun h => h.2.2⟩
  · rw [if_neg hneg, if_pos hcnt]
    exact ⟨fun h => absurd h Bool.false_ne_true, fun h => absurd h.2.1.2 hcnt⟩

/-- If the key is programmed, the test finds it exactly if it detects. -/
theorem exist_iff_detects (hprog : Programmed efuse inf) :
    keymanageEfuseExist cfg efuse hw inf.keyname = true ↔ Detects hw inf := by
  rw [keymanageEfuseExist_iff hname hkey]
  refine and_congr_right fun _ => and_congr_right fun hreads => ?_
  rw [efuseReadUsr]
  dsimp only
  by_cases hret : hw.read.ret = 0
  · have hcnt := hreads.2
    rw [if_pos hret] at hcnt
    rw [if_pos ⟨hret, hcnt⟩, any_load_ne_zero]
    exact ⟨fun _ hne => absurd hret hne, fun _ => hprog⟩
  · rw [if_neg (fun h => hret h.1), any_load_ne_zero]
    simp only [zero_add]
    exact ⟨fun h _ => h, fun h => h hret⟩

end

/-- A programmed key is never written iff it is not programmed, or the data does not have its size,
or the test for its existence can allocate its buffer and read the key. -/
theorem oneTime_iff (cfg : KeyConfig) (efuse : ℕ → UInt8) (hw : Hw) (inf : EfusekeyInfo)
    (data : List UInt8) (datalen : UInt32) (hname : inf.keyname ≠ secureBootKeyName)
    (hdev : keymanageDtsGetKeyDevice cfg inf.keyname = .efuseNormal)
    (hkey : getCfgKeyInfByname cfg inf.keyname = some inf) :
    OneTime cfg efuse hw inf data datalen ↔ ¬ Programmed efuse inf ∨ datalen ≠ inf.size ∨
      Detects hw inf := by
  rw [OneTime, keyUnifyWrite, hdev]
  by_cases hprog : Programmed efuse inf
  swap
  · exact ⟨fun _ => .inl hprog, fun _ h => absurd h hprog⟩
  by_cases hexist : keymanageEfuseExist cfg efuse hw inf.keyname = true
  · rw [if_pos hexist]
    exact ⟨fun _ => .inr (.inr ((exist_iff_detects hname hkey hprog).mp hexist)),
      fun _ _ _ _ _ h => by cases h⟩
  rw [if_neg hexist, keymanageEfuseWrite, if_neg hname, efuseUsrApiWriteKey, hkey]
  dsimp only
  by_cases hlen : datalen = inf.size
  · rw [if_neg (not_not.mpr hlen)]
    constructor
    · intro h
      exact absurd (List.mem_singleton.mpr rfl) (h hprog data inf.size inf.offset)
    · rintro (h | h | h)
      · exact absurd hprog h
      · exact absurd hlen h
      · exact absurd ((exist_iff_detects hname hkey hprog).mpr h) hexist
  · rw [if_pos hlen]
    exact ⟨fun _ => .inr (.inl hlen), fun _ _ _ _ _ h => by cases h⟩

end Law

/-- The key `mac` of 6 bytes. -/
def macInf : EfusekeyInfo := ⟨"mac".toUTF8.data.toList, 0, 6⟩

/-- A configuration with this key only. -/
def macOnly : KeyConfig where
  keyFlag := true
  unifykeyItem := [⟨macInf.keyname, .efuseNormal, .hexdata⟩]
  initMagic := 0xee
  keyInf := [macInf]

/-- Everything works. -/
def goodHw : Hw where
  malloc := true
  read := ⟨0, 6, fun _ => 0⟩
  cfg10 := 0
  runCommand := 0
  efuseWrite := 0
  secukeyWrite := 0

theorem oneTime_iff_mac : OneTime macOnly (fun _ => 1) goodHw macInf [1, 2, 3, 4, 5, 6] 6 :=
  (oneTime_iff macOnly (fun _ => 1) goodHw macInf [1, 2, 3, 4, 5, 6] 6 (by decide) (by decide) rfl).mpr
    (.inr (.inr ⟨rfl, ⟨by decide, rfl⟩, fun h => absurd rfl h⟩))

/-- If the buffer cannot be allocated, a programmed key is written again. -/
theorem not_oneTime_mac :
    ¬ OneTime macOnly (fun _ => 1) { goodHw with malloc := false } macInf [1, 2, 3, 4, 5, 6] 6 := by
  intro h
  exact h ⟨0, by decide, by decide⟩ [1, 2, 3, 4, 5, 6] 6 0 (by decide)

end UBoot.Keymanage
