import Mathlib.Algebra.Group.Int.Defs
import UBoot.Burning.BufferManager
import Mathlib.Data.Int.Basic

/-!
# Burning from an SD card

Reference: `v2_sdc_burn/optimus_sdc_burn.c` (`optimus_burn_one_partition`),
`v2_sdc_burn/optimus_sdc_update.c` (`sdc_burn_buf_manager_init`), `v2_common/optimus_img_decoder.c`
(`image_item_get_first_cluster_size`, `image_item_read`) and `v2_common/optimus_download.c`
(`optimus_download_img_data`) for images that are not sparse.

An item of the package is read in pieces of 64 KiB into the slots of the buffer manager. The first
cluster, in which the item need not start at the beginning, is read separately in front of the first
slot.
-/

namespace UBoot.Burning

open UBoot.Common

/-! ## The package -/

/-- `ImgSrcIf_t`: the package is a partition of the store, or a file of a FAT file system with
`cluster_size` sectors in a cluster. -/
inductive ImgSrcIf where
  | store
  | fat (clusterSize : UInt8)

/-- `devAlignSz`. -/
def ImgSrcIf.devAlignSz : ImgSrcIf → ℕ
  | .store => 4096
  | .fat clusterSize => clusterSize.toNat * 512

section

variable (src : ImgSrcIf) (package : ℕ → UInt8)

/-- `image_item_get_first_cluster_size`. -/
def imageItemGetFirstClusterSize (offsetInImage : ℕ) : ℕ :=
  src.devAlignSz - (offsetInImage &&& (src.devAlignSz - 1))

/-- `image_item_read` of `wantSz` bytes at `offset`, from a medium whose reads succeed. A read from
the store that does not start at a block first gets the whole block. -/
def imageItemRead (offset wantSz : ℕ) : List UInt8 :=
  match src with
  | .fat _ => load package offset wantSz
  | .store =>
    let storeBlkSz := src.devAlignSz
    let offsetNotAlign := offset &&& (storeBlkSz - 1)
    let sizeNotAlignInFirstBlk := storeBlkSz - offsetNotAlign
    if offsetNotAlign ≠ 0 then
      let bufInABlk := load package (offset - offsetNotAlign) storeBlkSz
      let bufLen := if sizeNotAlignInFirstBlk < wantSz then sizeNotAlignInFirstBlk else wantSz
      (bufInABlk.drop offsetNotAlign).take bufLen ++
        if sizeNotAlignInFirstBlk < wantSz then
          load package (offset + sizeNotAlignInFirstBlk) (wantSz - bufLen)
        else []
    else load package offset wantSz

/-! ## The consumer -/

/-- `imgBurnSta`. -/
inductive ImgBurnSta where
  | preBurn
  | burnIng
  | burnComplete
  | verifyIng
  | burnFailed
deriving DecidableEq

/-- `struct ImgBurnInfo`, for images that are not sparse. -/
structure ImgBurnInfo where
  isBootloader : Bool
  imgPktSz : ℕ
  imgSzDisposed : ℕ
  imgBurnSta : ImgBurnSta

variable (info : ImgBurnInfo)

/-- The change of state in `optimus_storage_open`. -/
def storageOpen : ImgBurnInfo :=
  if info.imgSzDisposed = 0 ∧ info.imgBurnSta = .preBurn then { info with imgBurnSta := .burnIng }
  else if info.imgSzDisposed = info.imgPktSz ∧ info.imgBurnSta = .burnComplete then
    { info with imgBurnSta := .verifyIng }
  else info

/-- The size that `optimus_storage_write` has written, to a medium whose writes succeed: that of all
data, but a boot loader must come as a whole and be of at most 2 MiB. -/
def storageWrite (dataSz : ℕ) : ℕ :=
  if info.imgBurnSta ≠ .burnIng then 0
  else if info.isBootloader then
    if dataSz < info.imgPktSz then 0
    else if 2 ^ 21 < dataSz then 0
    else dataSz
  else dataSz

/-- The change of state in `optimus_storage_close`. -/
def storageClose : ImgBurnInfo :=
  if info.imgSzDisposed = info.imgPktSz ∧ info.imgBurnSta = .burnIng then
    { info with imgBurnSta := .burnComplete }
  else info

/-- `optimus_download_img_data`: the size that was burned, and the new state. -/
def downloadImgData (data : List UInt8) : ℕ × ImgBurnInfo :=
  let opened := storageOpen info
  let burnSz := storageWrite opened data.length
  if burnSz = 0 then (0, { storageClose opened with imgBurnSta := .burnFailed })
  else (burnSz, storageClose { opened with imgSzDisposed := opened.imgSzDisposed + burnSz })

/-- The state after some calls. -/
def infoAfter (offers : List Offer) : ImgBurnInfo :=
  offers.foldl (fun i o => (downloadImgData i o.data).2) info

/-- `optimus_download_img_data` as the consumer of the buffer manager. -/
def burnConsumer (offers : List Offer) (data : List UInt8) : ℕ :=
  (downloadImgData (infoAfter info offers) data).1

/-! ## The initialisation -/

/-- A 64-bit value as a signed number. -/
def s64 (x : ℕ) : ℤ := if x % 2 ^ 64 < 2 ^ 63 then (x % 2 ^ 64 : ℕ) else (x % 2 ^ 64 : ℕ) - 2 ^ 64

/-- What the store says about a partition: its size in sectors, and whether it agrees with the
device tree (`_assert_logic_partition_cap`). -/
structure PartInfo where
  sectors : ℕ
  logicCapOk : Bool

/-- `partCap`, in bytes. -/
def PartInfo.partCap (part : PartInfo) : ℕ := part.sectors * 512 % 2 ^ 64

/-- `optimus_parse_img_download_info` for an image that is not sparse. -/
def parseImgDownloadInfo (partName : String) (imgSz : ℕ) (part : Option PartInfo) :
    Option ImgBurnInfo :=
  let info : ImgBurnInfo := ⟨partName = "bootloader", imgSz, 0, .preBurn⟩
  if partName = "bootloader" then some info
  else
    match part with
    | none => none
    | some part =>
      if part.partCap < imgSz then none
      else if !part.logicCapOk then none
      else some info

/-- `sdc_burn_buf_manager_init` for an image that is not sparse. -/
def sdcBurnBufManagerInit (partName : String) (imgItemSz : ℕ) (part : Option PartInfo)
    (itemSizeNotAligned : ℕ) : Option (BufManager × ImgBurnInfo) :=
  let partCapInByte := match part with
    | none => 0
    | some part => s64 part.partCap
  if partName ≠ "bootloader" ∧ (partCapInByte < s64 imgItemSz ∨ partCapInByte = 0) then none
  else
    match parseImgDownloadInfo partName imgItemSz part,
      tplcmdInit .store partName 0 .normal imgItemSz itemSizeNotAligned with
    | some info, some man => some (man, info)
    | _, _ => none

/-! ## The loop -/

/-- The body of the loop of `optimus_burn_one_partition`: get a slot, read, report. -/
def burnStep (consume : List Offer → List UInt8 → ℕ) (src : ImgSrcIf) (package : ℕ → UInt8)
    (itemSizeNotAligned : ℕ) (s : Session) (sequenceNo offset thisReadLen : ℕ) :
    Option (Session × ℕ) :=
  match s.man.getBufForBulkTransfer thisReadLen with
  | none => none
  | some downTransBuf =>
    let first := itemSizeNotAligned ≠ 0 ∧ sequenceNo = 0
    let mem := if first then
        store s.mem (downTransBuf - itemSizeNotAligned)
          (imageItemRead src package offset itemSizeNotAligned)
      else s.mem
    let offset := if first then offset + itemSizeNotAligned else offset
    let mem := store mem downTransBuf (imageItemRead src package offset thisReadLen)
    match reportTransferComplete consume { s with mem := mem } thisReadLen with
    | none => none
    | some s' => some (s', offset + thisReadLen)

/-- The loop of `optimus_burn_one_partition`. Each turn takes at least one byte off `leftItemSz`, so
that `leftItemSz` turns and one more test of the condition are enough. -/
def burnLoop (consume : List Offer → List UInt8 → ℕ) (src : ImgSrcIf) (package : ℕ → UInt8)
    (itemSizeNotAligned : ℕ) : ℕ → ℤ → ℕ → ℕ → Session → Option Session
  | 0, _, _, _, _ => none
  | fuel + 1, leftItemSz, sequenceNo, offset, s =>
    if leftItemSz ≤ 0 then some s
    else
      let thisReadLen := if (transferUnitSz : ℤ) < leftItemSz then transferUnitSz else leftItemSz.toNat
      match burnStep consume src package itemSizeNotAligned s sequenceNo offset thisReadLen with
      | none => none
      | some (s', offset') =>
        burnLoop consume src package itemSizeNotAligned fuel (leftItemSz - thisReadLen)
          (sequenceNo + 1) offset' s'

/-- The part of `optimus_burn_one_partition` behind the initialisation. -/
def burnItem (mem : ℕ → UInt8) (offsetInImage itemSz itemSizeNotAligned : ℕ)
    (verifyOk : Bool) (man : BufManager) (info : ImgBurnInfo) : Option (List Offer) :=
  let leftItemSz := s64 (itemSz + 2 ^ 64 - itemSizeNotAligned)
  (burnLoop (burnConsumer info) src package itemSizeNotAligned (leftItemSz.toNat + 1) leftItemSz 0
    offsetInImage ⟨man, mem, []⟩).bind fun s => if verifyOk then some s.offers else none

/-- `optimus_burn_one_partition` of an item that is not sparse. The result is `none` if it fails,
and the calls of `optimus_download_img_data` if it returns 0. `verifyOk` says that nothing is to be
verified or that the verification does not fail. -/
def burnOnePartition (mem : ℕ → UInt8) (partName : String)
    (part : Option PartInfo) (offsetInImage itemSz : ℕ) (verifyOk : Bool) : Option (List Offer) :=
  if itemSz = 0 then none
  else
    let itemSizeNotAligned := imageItemGetFirstClusterSize src offsetInImage
    match sdcBurnBufManagerInit partName itemSz part itemSizeNotAligned with
    | none => none
    | some (man, info) =>
      burnItem src package mem offsetInImage itemSz itemSizeNotAligned verifyOk man info

end

end UBoot.Burning
