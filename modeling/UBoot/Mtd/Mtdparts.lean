import UBoot.Common.CStr
import UBoot.Lib.Vsprintf

/-!
# The variable `mtdparts`

Reference: `common/cmd_mtdparts.c`.

A text describes partitions of flash devices; it is parsed into a list of devices, and a list of
devices is formatted as a text. Allocations do not fail. What depends on the current partition is
left out: there is none while a text is parsed.
-/

namespace UBoot.Mtd

open UBoot.Common UBoot.Lib

/-! ### Devices -/

/-- `MTD_DEV_TYPE_NOR`, `MTD_DEV_TYPE_NAND` and `MTD_DEV_TYPE_ONENAND`. -/
inductive DevType where
  | nor
  | nand
  | onenand
deriving DecidableEq

/-- `struct mtd_erase_region_info`. -/
structure EraseRegion where
  offset : ℕ
  erasesize : ℕ
  numblocks : ℕ
deriving DecidableEq

/-- What is used of `struct mtd_info`. -/
structure MtdInfo where
  erasesize : ℕ
  eraseregions : List EraseRegion
deriving DecidableEq

/-- `struct mtdids`. -/
structure Mtdids where
  type : DevType
  num : ℕ
  size : ℕ
  mtdId : CStr
  size_lt : size < 2 ^ 64
deriving DecidableEq

/-- `struct part_info`. -/
structure Part where
  name : CStr
  autoName : Bool
  size : ℕ
  offset : ℕ
  maskFlags : ℕ
deriving DecidableEq

/-- `struct mtd_device`. -/
structure Device where
  id : Mtdids
  numParts : ℕ
  parts : List Part
deriving DecidableEq

/-- The reasons for which a text is refused. -/
inductive MtdpartsError where
  | deviceNotFound
  | startAlignment
  | sizeAlignment
  | beyondFlashSize
  | sizeTooBig
  | exceedsFlashSize
  | secondAtZero
  | sizeTooSmall
  | noClosing
  | emptyName
  | afterFillUp
  | unexpectedCharacter
  | noMtdId
  | invalidDevice
  | noPartitions
  | noPrefix
  | redefined
deriving DecidableEq

/-- `SIZE_REMAINING`. -/
def sizeRemaining : ℕ := 2 ^ 64 - 1

/-- `OFFSET_NOT_SPECIFIED`. -/
def offsetNotSpecified : ℕ := 2 ^ 64 - 1

/-- `MIN_PART_SIZE`. -/
def minPartSize : ℕ := 4096

/-! ### Sizes -/

/-- `memsize_parse`: the number, and the text behind it. -/
def memsizeParse (p : List UInt8) : ℕ × List UInt8 :=
  match simpleStrtoul 0 p with
  | (ret, c :: q) =>
    if c = 71 ∨ c = 103 then (ret * 2 ^ 30 % 2 ^ 64, q)
    else if c = 77 ∨ c = 109 then (ret * 2 ^ 20 % 2 ^ 64, q)
    else if c = 75 ∨ c = 107 then (ret * 2 ^ 10 % 2 ^ 64, q)
    else (ret, c :: q)
  | (ret, []) => (ret, [])

/-- `memsize_format`. -/
def memsizeFormat (size : ℕ) : List UInt8 :=
  if size % 2 ^ 30 = 0 then fmtU (size / 2 ^ 30) ++ [103]
  else if size % 2 ^ 20 = 0 then fmtU (size / 2 ^ 20) ++ [109]
  else if size % 2 ^ 10 = 0 then fmtU (size / 2 ^ 10) ++ [107]
  else fmtU size

/-! ### Checks -/

section Checks

variable (mtds : DevType → ℕ → Option MtdInfo)

/-- Where the blocks of a region start. -/
def EraseRegion.starts (r : EraseRegion) : List ℕ :=
  (List.range r.numblocks).map fun j => (r.offset + j * r.erasesize) % 2 ^ 64

/-- `part_validate_eraseblock`. -/
def partValidateEraseblock (id : Mtdids) (part : Part) : Except MtdpartsError Unit :=
  match mtds id.type id.num with
  | none => .error .deviceNotFound
  | some mtd =>
    match mtd.eraseregions.getLast? with
    | none =>
      if part.offset % mtd.erasesize ≠ 0 then .error .startAlignment
      else if part.size % mtd.erasesize ≠ 0 then .error .sizeAlignment
      else .ok ()
    | some last =>
      let starts := mtd.eraseregions.flatMap EraseRegion.starts
      let partEnd := (part.offset + part.size) % 2 ^ 64
      if part.offset ∉ starts then .error .startAlignment
      else if partEnd ∉ starts ∧ partEnd ≠ (last.offset + last.numblocks * last.erasesize) % 2 ^ 64 then
        .error .sizeAlignment
      else .ok ()

/-- `part_validate`: the partition, with its size if that was all the remaining space. -/
def partValidate (id : Mtdids) (part : Part) : Except MtdpartsError Part :=
  let part := if part.size = sizeRemaining then
    { part with size := (id.size + (2 ^ 64 - part.offset)) % 2 ^ 64 } else part
  if part.offset > id.size then .error .beyondFlashSize
  else if (part.offset + part.size) % 2 ^ 64 ≤ part.offset then .error .sizeTooBig
  else if (part.offset + part.size) % 2 ^ 64 > id.size then .error .exceedsFlashSize
  else
    match partValidateEraseblock mtds id part with
    | .error e => .error e
    | .ok () => .ok part

/-- `part_sort_add`, on the list of partitions. -/
def partSortAdd (part : Part) : List Part → Except MtdpartsError (List Part)
  | [] => .ok [part]
  | pi :: parts =>
    if part.offset = pi.offset ∧ pi.offset = 0 then .error .secondAtZero
    else if part.offset ≤ pi.offset then .ok (part :: pi :: parts)
    else
      match partSortAdd part parts with
      | .error e => .error e
      | .ok parts => .ok (pi :: parts)

end Checks

/-! ### Parsing -/

section Parsing

variable (mtds : DevType → ℕ → Option MtdInfo) (ids : List Mtdids)

/-- The size of a partition definition. -/
def sizeParse : List UInt8 → Except MtdpartsError (ℕ × List UInt8)
  | 45 :: p => .ok (sizeRemaining, p)
  | p => if (memsizeParse p).1 < minPartSize then .error .sizeTooSmall else .ok (memsizeParse p)

/-- The offset of a partition definition. -/
def offsetParse : List UInt8 → ℕ × List UInt8
  | 64 :: p => memsizeParse p
  | p => (offsetNotSpecified, p)

/-- The name of a partition definition. -/
def nameParse : List UInt8 → Except MtdpartsError (Option (List UInt8) × List UInt8)
  | 40 :: p =>
    if 41 ∉ p then .error .noClosing
    else if p.takeWhile (· ≠ 41) = [] then .error .emptyName
    else .ok (some (p.takeWhile (· ≠ 41)), (p.dropWhile (· ≠ 41)).tail)
  | p => .ok (none, p)

/-- The options of a partition definition. -/
def flagsParse : List UInt8 → ℕ × List UInt8
  | 114 :: 111 :: p => (1, p)
  | p => (0, p)

/-- What follows a partition definition. -/
def nextParse (size : ℕ) : List UInt8 → Except MtdpartsError (List UInt8)
  | [] => .ok []
  | c :: p =>
    if c = 44 then if size = sizeRemaining then .error .afterFillUp else .ok p
    else if c = 59 then .ok (c :: p)
    else .error .unexpectedCharacter

/-- A name in the form `0x%08llx@0x%08llx`. -/
def autoNameOf (size offset : ℕ) : List UInt8 :=
  [48, 120] ++ fmtLx 8 size ++ [64, 48, 120] ++ fmtLx 8 offset

/-- `part_parse`. -/
def partParse (partdef : List UInt8) : Except MtdpartsError (Part × List UInt8) :=
  match sizeParse partdef with
  | .error e => .error e
  | .ok (size, p) =>
    let (offset, p) := offsetParse p
    match nameParse p with
    | .error e => .error e
    | .ok (name, p) =>
      let (maskFlags, p) := flagsParse p
      match nextParse size p with
      | .error e => .error e
      | .ok p =>
        let part := {
          -- `part->name[name_len - 1]` is set to 0 behind the `sprintf`
          name := CStr.ofBytes (name.getD ((autoNameOf size offset).take 21))
          autoName := name.isNone
          size, offset, maskFlags }
        .ok (part, p)

/-- `device_find`. -/
def deviceFind (devices : List Device) (type : DevType) (num : ℕ) : Option Device :=
  devices.find? fun dev => dev.id.type = type ∧ dev.id.num = num

/-- `id_find_by_mtd_id`. -/
def idFindByMtdId (mtdId : List UInt8) : Option Mtdids := ids.find? fun id => id.mtdId.bytes = mtdId

/-- The loop of `device_parse` over the partition definitions. A definition is not empty, so as many
rounds as there are characters are enough. -/
def partsLoop (id : Mtdids) : ℕ → List UInt8 → ℕ → Except MtdpartsError (List Part × List UInt8)
  | 0, p, _ => .ok ([], p)
  | fuel + 1, p, offset =>
    if p.head?.all (· = 59) then .ok ([], p)
    else
      match partParse p with
      | .error e => .error e
      | .ok (part, p) =>
        -- calculate offset when not specified
        let part := if part.offset = offsetNotSpecified then { part with offset } else part
        match partValidate mtds id part with
        | .error e => .error e
        | .ok part =>
          match partsLoop id fuel p ((part.offset + part.size) % 2 ^ 64) with
          | .error e => .error e
          | .ok (parts, p) => .ok (part :: parts, p)

/-- The partitions are moved to the device one by one. -/
def sortAll : List Part → List Part → Except MtdpartsError (List Part)
  | acc, [] => .ok acc
  | acc, part :: parts =>
    match partSortAdd part acc with
    | .error e => .error e
    | .ok acc => sortAll acc parts

/-- The position behind the partitions of a device that exists already. -/
def startOffset (devices : List Device) (id : Mtdids) : ℕ :=
  match deviceFind devices id.type id.num with
  | none => 0
  | some dev =>
    match dev.parts.getLast? with
    | none => 0
    | some part => (part.offset + part.size) % 2 ^ 64

/-- `device_parse`. -/
def deviceParse (devices : List Device) (mtdDev : List UInt8) :
    Except MtdpartsError (Device × List UInt8) :=
  if 58 ∉ mtdDev then .error .noMtdId
  else
    match idFindByMtdId ids (mtdDev.takeWhile (· ≠ 58)) with
    | none => .error .invalidDevice
    | some id =>
      let p := (mtdDev.dropWhile (· ≠ 58)).tail
      match partsLoop mtds id (p.length + 1) p (startOffset devices id) with
      | .error e => .error e
      | .ok (parts, p) =>
        if parts.length % 2 ^ 16 = 0 then .error .noPartitions
        else
          match sortAll [] parts with
          | .error e => .error e
          -- `part_sort_add` increments `num_parts`
          | .ok sorted => .ok (⟨id, parts.length % 2 ^ 16, sorted⟩, p.tail)

/-- The loop of `parse_mtdparts`. -/
def devicesLoop : ℕ → List Device → List UInt8 → Except MtdpartsError (List Device)
  | 0, devices, _ => .ok devices
  | fuel + 1, devices, p =>
    if p = [] then .ok devices
    else
      match deviceParse mtds ids devices p with
      | .error e => .error e
      | .ok (dev, p) =>
        if (deviceFind devices dev.id.type dev.id.num).isSome then .error .redefined
        else devicesLoop fuel (devices ++ [dev]) p

/-- The text `mtdparts=`. -/
def mtdpartsPrefix : List UInt8 := [109, 116, 100, 112, 97, 114, 116, 115, 61]

/-- `parse_mtdparts`. -/
def parseMtdparts (mtdparts : CStr) : Except MtdpartsError (List Device) :=
  let p := mtdparts.bytes
  if p.take 9 ≠ mtdpartsPrefix then .error .noPrefix
  else if p.drop 9 = [] then .error .noPartitions
  else devicesLoop mtds ids (p.length + 1) [] (p.drop 9)

end Parsing

/-! ### Formatting -/

section Formatting

/-- Where a partition starts if no offset is given. -/
def endOf : Option Part → ℕ
  | none => 0
  | some prev => (prev.offset + prev.size) % 2 ^ 64

/-- The pieces of a partition definition. -/
def partPieces (prev : Option Part) (part : Part) (more : Bool) : List (List UInt8) :=
  [memsizeFormat part.size] ++
  -- add offset only when there is a gap between partitions
  (if endOf prev ≠ part.offset then [64 :: memsizeFormat part.offset] else []) ++
  (if part.autoName then [] else [[40] ++ part.name.bytes ++ [41]]) ++
  (if part.maskFlags ≠ 0 then [[114, 111]] else []) ++
  (if more then [[44]] else [])

/-- The pieces of the definitions behind the first `cnt`. -/
def partsPieces (numParts : ℕ) : ℕ → Option Part → List Part → List (List UInt8)
  | _, _, [] => []
  | cnt, prev, part :: parts =>
    partPieces prev part (numParts > cnt + 1) ++ partsPieces numParts (cnt + 1) (some part) parts

/-- The pieces of the definitions of all devices. -/
def devicesPieces : List Device → List (List UInt8)
  | [] => []
  | dev :: devices =>
    [dev.id.mtdId.bytes ++ [58]] ++ partsPieces dev.numParts 0 none dev.parts ++
      (if devices ≠ [] then [[59]] else []) ++ devicesPieces devices

/-- Pieces are appended as long as there is room. -/
def emit : ℕ → List (List UInt8) → Option (List UInt8)
  | _, [] => some []
  | maxlen, piece :: pieces =>
    if piece.length > maxlen then none else (emit (maxlen - piece.length) pieces).map (piece ++ ·)

theorem emit_eq (maxlen : ℕ) (pieces : List (List UInt8)) :
    emit maxlen pieces = if pieces.flatten.length ≤ maxlen then some pieces.flatten else none := by
  induction pieces generalizing maxlen with
  | nil => rfl
  | cons piece pieces ih =>
    rw [emit, ih, List.flatten_cons, List.length_append]
    split_ifs <;> first | rfl | omega

/-- `generate_mtdparts`: what is written to the buffer, or nothing if there is no room. The first
nine characters are not counted. -/
def generateMtdparts (devices : List Device) (buflen : ℕ) : Option (List UInt8) :=
  if devices = [] then some []
  else (emit (buflen - 1) (devicesPieces devices)).map (mtdpartsPrefix ++ ·)

/-- `MTDPARTS_MAXLEN`, the size of the buffer `last_parts`. -/
def mtdpartsMaxlen : ℕ := 512

end Formatting

end UBoot.Mtd
