import UBoot.Common.Memory

/-!
# The download buffer manager

Reference: `v2_common/optimus_buffer_manager.c` (`optimus_buf_manager_tplcmd_init`,
`optimus_buf_manager_get_buf_for_bulk_transfer`, `optimus_buf_manager_report_transfer_complete`),
for downloads.

The host sends a packet in transfers of 64 KiB. The manager collects a number of them in the
transfer buffer and offers them to the consumer, `optimus_download_img_data`; what the consumer
leaves is moved in front of the transfer buffer and offered again.
-/

namespace UBoot.Burning

open UBoot.Common

/-- `OPTIMUS_DOWNLOAD_SLOT_SZ`, the size of a transfer. -/
def transferUnitSz : ℕ := 65536

/-- `OPTIMUS_DOWNLOAD_TRANSFER_BUF_ADDR`. -/
def transferBuf : ℕ := 0x7700000

/-- `OPTIMUS_DOWNLOAD_TRANSFER_BUF_TOTALSZ`, which is also `OPTIMUS_SIMG_WRITE_BACK_SZ`. -/
def transferBufSz : ℕ := 2 ^ 26

/-- `OPTIMUS_SPARSE_IMG_LEFT_DATA_MAX_SZ`, the room in front of the transfer buffer. -/
def leftDataMaxSz : ℕ := 2 ^ 21

/-- The argument `mediaType` and the field `destMediaType`. -/
inductive MediaType where
  | store
  | mem
deriving DecidableEq

/-- The argument `imgType`. -/
inductive ImgType where
  | normal
  | sparse
deriving DecidableEq

/-- `_bufManager`. -/
structure BufManager where
  writeBackUnitSz : ℕ
  tplcmdTotalSz : ℕ
  totalSlotNum : ℕ
  nextWriteBackSlot : ℕ
  leftDataSz : ℕ
  destMediaType : MediaType
  partBaseOffset : ℕ
  itemOffsetNotAlignClusterSz : ℕ

/-- A size in whole transfers, computed in 32 bits. -/
def slotsOf (sz : ℕ) : ℕ := (sz % 2 ^ 32 + transferUnitSz - 1) % 2 ^ 32 / transferUnitSz

/-- A size rounded up to whole transfers, computed in 32 bits. -/
def roundToSlots (sz : ℕ) : ℕ := (sz + transferUnitSz - 1) % 2 ^ 32 /
    transferUnitSz * transferUnitSz

/-- The value of `writeBackUnitSz` that `optimus_buf_manager_tplcmd_init` settles on for a
packet. -/
def writeBackUnitSzOf (mediaType : MediaType) (partName : String) (imgType : ImgType)
    (pktSz itemSizeNotAligned : ℕ) : ℕ :=
  if mediaType = .mem ∨ partName = "bootloader" then roundToSlots pktSz
  else if imgType = .sparse ∨ itemSizeNotAligned ≠ 0 then transferBufSz
  else transferUnitSz

/-- `optimus_buf_manager_tplcmd_init` for a download. -/
def tplcmdInit (mediaType : MediaType) (partName : String) (partBaseOffset : ℕ) (imgType : ImgType)
    (pktTotalSz itemSizeNotAligned : ℕ) : Option BufManager :=
  let pktSz := (pktTotalSz + 2 ^ 64 - itemSizeNotAligned) % 2 ^ 64
  let unit := writeBackUnitSzOf mediaType partName imgType pktSz itemSizeNotAligned
  if partName = "bootloader" ∧ transferBufSz < pktSz then none
  else if mediaType = .mem ∧ 2 ^ 32 ≤ partBaseOffset then none
  else if transferBufSz < unit ∧ mediaType ≠ .mem then none
  else if unit < transferUnitSz then none
  else some
    { writeBackUnitSz := unit
      tplcmdTotalSz := pktSz
      totalSlotNum := 0
      nextWriteBackSlot := if pktSz < unit then slotsOf pktSz else unit / transferUnitSz
      leftDataSz := itemSizeNotAligned
      destMediaType := mediaType
      partBaseOffset := if mediaType = .mem then partBaseOffset else 0
      itemOffsetNotAlignClusterSz := itemSizeNotAligned }

namespace BufManager

/-- `BufBase`. -/
def bufBase (m : BufManager) : ℕ :=
  match m.destMediaType with
  | .store => transferBuf
  | .mem => m.partBaseOffset

/-- `leftPktSz`, given the size that has been transferred. -/
def leftPktSz (m : BufManager) (totalTransferSz : ℕ) : ℕ :=
  if m.tplcmdTotalSz < totalTransferSz then 0 else m.tplcmdTotalSz - totalTransferSz

/-- `optimus_buf_manager_get_buf_for_bulk_transfer`: where the next transfer goes. -/
def getBufForBulkTransfer (m : BufManager) (wantSz : ℕ) : Option ℕ :=
  let totalTransferSz := m.totalSlotNum * transferUnitSz
  if wantSz < transferUnitSz ∧ m.leftPktSz totalTransferSz ≠ wantSz then none
  else some (m.bufBase + totalTransferSz % 2 ^ 32 % m.writeBackUnitSz)

/-- `thisWriteBackSz`. -/
def thisWriteBackSz (m : BufManager) (transferSz : ℕ) : ℕ :=
  if transferSz = transferUnitSz then m.writeBackUnitSz
  else (m.totalSlotNum * transferUnitSz + transferSz) % 2 ^ 32 % m.writeBackUnitSz

/-- The next slot to write back at, when `leftPktSz` bytes of the packet are still to come. -/
def advance (m : BufManager) (leftPktSz : ℕ) : ℕ :=
  if m.writeBackUnitSz ≤ leftPktSz then
    (m.nextWriteBackSlot + m.writeBackUnitSz / transferUnitSz) % 2 ^ 32
  else (m.nextWriteBackSlot + slotsOf leftPktSz) % 2 ^ 32

end BufManager

/-- A call of `optimus_download_img_data`: the data and the size that it has taken. -/
structure Offer where
  data : List UInt8
  burnSz : ℕ

/-- The manager, the memory, and the calls of the consumer so far. -/
structure Session where
  man : BufManager
  mem : ℕ → UInt8
  offers : List Offer

section

variable (consume : List Offer → List UInt8 → ℕ) (s : Session) (packet : List UInt8)

/-- The part of `optimus_buf_manager_report_transfer_complete` that writes back: the consumer takes
a first part of the data, and the rest goes in front of the buffer. -/
def writeBack (transferSz : ℕ) : Option Session :=
  let m := s.man
  let totalTransferSz := m.totalSlotNum * transferUnitSz + transferSz
  let left := m.leftPktSz totalTransferSz
  let size := (m.leftDataSz + m.thisWriteBackSz transferSz) % 2 ^ 32
  let reserve := if left ≠ 0 then m.itemOffsetNotAlignClusterSz else 0
  let addr := m.bufBase - m.leftDataSz
  let data := load s.mem addr (size - reserve)
  let burnSz := consume s.offers data
  let leftSz := size - burnSz
  let done : Session :=
    { man := { m with
        totalSlotNum := (m.totalSlotNum + 1) % 2 ^ 32
        leftDataSz := leftSz
        nextWriteBackSlot := m.advance left }
      mem := store s.mem (m.bufBase - leftSz) (load s.mem (addr + burnSz) leftSz)
      offers := s.offers ++ [⟨data, burnSz⟩] }
  if burnSz ≤ m.leftDataSz ∨ burnSz = 0 then none
  else if size - reserve < burnSz then none
  else if leftSz = 0 then some { done with mem := s.mem }
  else if m.tplcmdTotalSz ≤ totalTransferSz then none
  else if leftDataMaxSz < leftSz then none
  else if leftSz % 4 ≠ 0 then none
  else some done

/-- `optimus_buf_manager_report_transfer_complete`. -/
def reportTransferComplete (transferSz : ℕ) : Option Session :=
  if (s.man.totalSlotNum + 1) % 2 ^ 32 = s.man.nextWriteBackSlot then writeBack consume s transferSz
  else some { s with man := { s.man with totalSlotNum := (s.man.totalSlotNum + 1) % 2 ^ 32 } }

/-- One transfer of the host. -/
def Session.transfer (bytes : List UInt8) : Option Session :=
  match s.man.getBufForBulkTransfer bytes.length with
  | none => none
  | some addr => reportTransferComplete consume { s with mem := store s.mem addr bytes } bytes.length

/-- The transfer with the given number of a packet. -/
def transferOf (n : ℕ) : List UInt8 :=
  (packet.drop (n * transferUnitSz)).take transferUnitSz

/-- The number of transfers of a packet. -/
def transferCount : ℕ := (packet.length + transferUnitSz - 1) / transferUnitSz

/-- The first `n` transfers of a packet. -/
def runTransfers : ℕ → Option Session
  | 0 => some s
  | n + 1 =>
    match runTransfers n with
    | none => none
    | some s' => s'.transfer consume (transferOf packet n)

end

end UBoot.Burning
