import Mathlib.Algebra.Group.Nat.Defs
import Mathlib.Data.Nat.Basic

/-!
# Block access

`mmc_bread`, `mmc_bwrite` and `mmc_berase` with the commands that they send to the card. The card is
an arbitrary function that answers a command, after the ones sent before, with an error or without.
A block number is 64 bits wide and the argument of a command 32 bits.
-/

namespace UBoot.Mmc

/-- `mmc->high_capacity` and the other fields of `struct mmc` that block access depends on, and the
global `info_disprotect`. -/
structure MmcDev where
  highCapacity : Bool
  isSd : Bool
  isEmmcTsd : Bool
  ddrMode : Bool
  hostIsSpi : Bool
  readBlLen : ℕ
  writeBlLen : ℕ
  eraseGrpSize : ℕ
  capacity : ℕ
  lba : ℕ
  bMax : ℕ
  infoDisprotect : ℕ
  eraseGrpSize_pos : 0 < eraseGrpSize
  bMax_lt : bMax < 2 ^ 32

/-- The commands that block access uses. -/
inductive CmdIdx
  | stopTransmission
  | sendStatus
  | setBlocklen
  | readSingleBlock
  | readMultipleBlock
  | writeSingleBlock
  | writeMultipleBlock
  | sdEraseWrBlkStart
  | sdEraseWrBlkEnd
  | eraseGroupStart
  | eraseGroupEnd
  | erase
deriving DecidableEq, Repr

/-- `struct mmc_cmd` with the counts of `struct mmc_data`. -/
structure Cmd where
  cmdidx : CmdIdx
  cmdarg : ℕ
  blocks : ℕ
  blocksize : ℕ
deriving DecidableEq, Repr

/-- A command without data. -/
def Cmd.plain (cmdidx : CmdIdx) (cmdarg : ℕ) : Cmd := ⟨cmdidx, cmdarg, 0, 0⟩

/-- How a card answers a command, given those sent before; `true` is an error. -/
abbrev Card := List Cmd → Cmd → Bool

section

variable (card : Card) (m : MmcDev) (fuel : ℕ) (sent : List Cmd) (start blkcnt : ℕ)

/-- `mmc_send_cmd`. -/
def mmcSendCmd (cmd : Cmd) : Bool × List Cmd :=
  (card sent cmd, sent ++ [cmd])

/-! ### The key area -/

/-- `(EMMCKEY_RESERVE_OFFSET + MMC_RESERVED_OFFSET) / MMC_BLOCK_SIZE`. -/
def keyStartBlk : ℕ := (0x4000 + 36 * 2 ^ 20) / 512

/-- The last block of the key area. -/
def keyEndBlk : ℕ := (0x4000 + 36 * 2 ^ 20 + 256 * 1024) / 512 - 1

/-- `DISPROTECT_KEY`, bit 0. -/
def disprotectKey : Prop := m.infoDisprotect % 2 = 1

instance (m : MmcDev) : Decidable (disprotectKey m) := inferInstanceAs (Decidable (_ = _))

/-- `emmckey_is_access_range_legal`. -/
def emmckeyIsAccessRangeLegal : Bool :=
  if m.isEmmcTsd then
    if ¬ disprotectKey m then
      if keyStartBlk ≤ (start + blkcnt + (2 ^ 64 - 1)) % 2 ^ 64 ∧ start ≤ keyEndBlk then false else true
    else true
  else true

/-! ### Reading and writing -/

/-- The argument of a command for a block: a block number or, for a card without high capacity, a
byte address. -/
def blockArg (blLen start : ℕ) : ℕ :=
  if m.highCapacity then start % 2 ^ 32 else start * blLen % 2 ^ 32

/-- `mmc_set_blocklen`. -/
def mmcSetBlocklen (len : ℕ) : Bool × List Cmd :=
  if m.ddrMode then (false, sent) else mmcSendCmd card sent (.plain .setBlocklen len)

/-- `MMC_CMD_STOP_TRANSMISSION` after a transfer of several blocks. -/
def sendStop (several : Bool) : Bool × List Cmd :=
  if several then mmcSendCmd card sent (.plain .stopTransmission 0) else (false, sent)

/-- The command of `mmc_read_blocks`. -/
def readCmd : Cmd :=
  ⟨if 1 < blkcnt then .readMultipleBlock else .readSingleBlock, blockArg m m.readBlLen start,
    blkcnt % 2 ^ 32, m.readBlLen⟩

/-- A block count returned as `int` and compared as `lbaint_t`. -/
def intCount : ℕ :=
  if blkcnt % 2 ^ 32 < 2 ^ 31 then blkcnt % 2 ^ 32 else blkcnt % 2 ^ 32 + (2 ^ 64 - 2 ^ 32)

/-- `mmc_read_blocks`. -/
def mmcReadBlocks : ℕ × List Cmd :=
  let ret := mmcSendCmd card sent (readCmd m start blkcnt)
  let stop := sendStop card ret.2 (1 < blkcnt)
  (if stop.1 ∨ ret.1 then 0 else intCount blkcnt, stop.2)

/-- The command of `mmc_write_blocks`. -/
def writeCmd : Cmd :=
  ⟨if blkcnt = 1 then .writeSingleBlock else .writeMultipleBlock, blockArg m m.writeBlLen start,
    blkcnt % 2 ^ 32, m.writeBlLen⟩

/-- `mmc_write_blocks`; the repetitions of `mmc_send_status` are taken as one command. -/
def mmcWriteBlocks : ℕ × List Cmd :=
  if m.lba < (start + blkcnt) % 2 ^ 64 then (0, sent)
  else if blkcnt = 0 then (0, sent)
  else
    let ret := mmcSendCmd card sent (writeCmd m start blkcnt)
    let stop := sendStop card ret.2 (¬ m.hostIsSpi ∧ 1 < blkcnt)
    if stop.1 ∨ ret.1 then (0, stop.2)
    else
      let status := mmcSendCmd card stop.2 (.plain .sendStatus 0)
      (if status.1 then 0 else blkcnt, status.2)

/-- The loop of `mmc_bread` and `mmc_bwrite`: pieces of at most `b_max` blocks. -/
def transferPieces (transfer : List Cmd → ℕ → ℕ → ℕ × List Cmd) (bMax : ℕ) :
    ℕ → List Cmd → ℕ → ℕ → Bool × List Cmd
  | 0, sent, _, _ => (false, sent)
  | fuel + 1, sent, start, blocksTodo =>
    let cur := if bMax < blocksTodo then bMax else blocksTodo
    let r := transfer sent start cur
    if r.1 ≠ cur then (false, r.2)
    else if 0 < blocksTodo - cur then
      transferPieces transfer bMax fuel r.2 ((start + cur) % 2 ^ 64) (blocksTodo - cur)
    else (true, r.2)

/-- `mmc_bread`: the number of blocks read and the commands sent. -/
def mmcBread : ℕ × List Cmd :=
  if blkcnt = 0 then (0, [])
  else if m.lba < (start + blkcnt) % 2 ^ 64 then (0, [])
  else if ¬ emmckeyIsAccessRangeLegal m start blkcnt then (0, [])
  else
    let len := mmcSetBlocklen card m [] m.readBlLen
    if len.1 then (0, len.2)
    else
      let r := transferPieces (mmcReadBlocks card m) m.bMax fuel len.2 start blkcnt
      (if r.1 then blkcnt else 0, r.2)

/-- `mmc_bwrite`. -/
def mmcBwrite : ℕ × List Cmd :=
  if ¬ emmckeyIsAccessRangeLegal m start blkcnt then (0, [])
  else
    let len := mmcSetBlocklen card m [] m.writeBlLen
    if len.1 then (0, len.2)
    else
      let r := transferPieces (mmcWriteBlocks card m) m.bMax fuel len.2 start blkcnt
      (if r.1 then blkcnt else 0, r.2)

/-! ### Erasing -/

/-- The command that names the first block to be erased. -/
def eraseStartCmd : Cmd :=
  .plain (if m.isSd then .sdEraseWrBlkStart else .eraseGroupStart) (blockArg m m.writeBlLen start)

/-- The command that names the last block to be erased. -/
def eraseEndCmd : Cmd :=
  .plain (if m.isSd then .sdEraseWrBlkEnd else .eraseGroupEnd)
    (blockArg m m.writeBlLen ((start + blkcnt + (2 ^ 64 - 1)) % 2 ^ 64))

/-- `MMC_CMD_ERASE` with `SECURE_ERASE`. -/
def eraseCmd : Cmd := .plain .erase 0x80000000

/-- `mmc_erase_t`: whether it failed, and the commands sent. -/
def mmcEraseT : Bool × List Cmd :=
  let first := mmcSendCmd card sent (eraseStartCmd m start)
  if first.1 then first
  else
    let last := mmcSendCmd card first.2 (eraseEndCmd m start blkcnt)
    if last.1 then last else mmcSendCmd card last.2 eraseCmd

/-- The loop of `mmc_berase`. -/
def eraseLoop : ℕ → List Cmd → ℕ → ℕ × List Cmd
  | 0, sent, _ => (0, sent)
  | fuel + 1, sent, blk =>
    if blk < blkcnt then
      let blkR := if blkcnt - blk < m.eraseGrpSize then m.eraseGrpSize else blkcnt - blk
      let err := mmcEraseT card m sent ((start + blk) % 2 ^ 64) blkR
      if err.1 then (0, err.2)
      else
        let status := mmcSendCmd card err.2 (.plain .sendStatus 0)
        if status.1 then (1, status.2) else eraseLoop fuel status.2 (blk + blkR)
    else (0, sent)

/-- The count that is erased: 0 stands for the whole card. -/
def eraseCount : ℕ :=
  if blkcnt = 0 then m.capacity / 512 - m.capacity / 512 % m.eraseGrpSize else blkcnt

/-- `mmc_berase`. -/
def mmcBerase : ℕ × List Cmd :=
  if ¬ emmckeyIsAccessRangeLegal m start blkcnt then (blkcnt, [])
  else eraseLoop card m start (eraseCount m blkcnt) fuel [] 0

end

end UBoot.Mmc
