import Mathlib.Algebra.Group.Int.Defs
import Mathlib.Data.Nat.Log
import Mathlib.Data.UInt
import UBoot.Common.Memory
import UBoot.Lib.Strtoul

/-!
# S-records

Reference: `common/cmd_load.c::save_serial`, `common/cmd_load.c::load_serial`, `common/s_record.c`.

A range of memory is sent as lines of hexadecimal digits, and lines are read back into memory. The
console is the serial line and nobody types Control-C; `putc` may put a carriage return in front of
a line feed.
-/

namespace UBoot.Serial

open UBoot.Common UBoot.Lib

/-! ### Decoding a record -/

/-- `hex2_bin`; the digits are those of `hex1_bin`. -/
def hex2Bin : List UInt8 → Option ℕ
  | a :: b :: _ =>
    match xdigitValue a, xdigitValue b with
    | some i, some j => some (i * 16 + j)
    | _, _ => none
  | _ => none

/-- Pairs of digits at the front of a text: their values, and the text behind them. -/
def hexBytesIn : ℕ → List UInt8 → Option (List UInt8 × List UInt8)
  | 0, input => some ([], input)
  | n + 1, input =>
    match hex2Bin input with
    | none => none
    | some v => (hexBytesIn n (input.drop 2)).map fun p => (UInt8.ofNat v :: p.1, p.2)

/-- The types of a record. -/
inductive SrecType where
  | start
  | data2
  | data3
  | data4
  | count
  | end4
  | end3
  | end2
  | empty
deriving DecidableEq

/-- The negative values of `srec_decode`. -/
inductive SrecError where
  | badType
  | noSrec
  | badChks
deriving DecidableEq

/-- What `srec_decode` finds in a record. -/
structure Srec where
  type : SrecType
  count : ℤ
  addr : ℕ
  data : List UInt8
deriving DecidableEq

/-- The type for a character, and the number of bytes of the address. -/
def recordType (v : UInt8) : Option (SrecType × ℕ) :=
  if v = 48 then some (.start, 2)
  else if v = 49 then some (.data2, 2)
  else if v = 50 then some (.data3, 3)
  else if v = 51 then some (.data4, 4)
  else if v = 53 then some (.count, 2)
  else if v = 55 then some (.end4, 4)
  else if v = 56 then some (.end3, 3)
  else if v = 57 then some (.end2, 2)
  else none

/-- The number with these bytes, highest first. -/
def ofBe (bytes : List UInt8) : ℕ := bytes.foldl (fun addr v => (addr * 256 + v.toNat) % 2 ^ 64) 0

/-- `srec_decode`. -/
def srecDecode (input : List UInt8) : Except SrecError Srec :=
  match (input.dropWhile (· ≠ 83)).tail with
  | [] => .ok ⟨.empty, 0, 0, []⟩
  | v :: input =>
    match hex2Bin input with
    | none => .error .noSrec
    | some n =>
      match recordType v with
      | none => .error .badType
      | some (type, width) =>
        -- what is left without address and checksum; negative if the record is too short for them
        let count : ℤ := if type = .count then 0 else n - (width + 1)
        match hexBytesIn width (input.drop 2) with
        | none => .error .noSrec
        | some (addr, input) =>
          match hexBytesIn count.toNat input with
          | none => .error .noSrec
          | some (data, input) =>
            match hex2Bin input with
            | none => .error .noSrec
            | some v =>
              if UInt8.ofNat v ≠ ~~~(UInt8.ofNat n + addr.sum + data.sum) then .error .badChks
              else .ok ⟨type, count, ofBe addr, data⟩

/-! ### Reading records -/

/-- What `read_record` returns. -/
inductive RecordIn where
  /-- a line, and the characters behind it -/
  | line (record rest : List UInt8)
  /-- -1 -/
  | abort
  /-- it waits for a character -/
  | waits
deriving DecidableEq

/-- A record with one more character in front. -/
def RecordIn.cons (c : UInt8) : RecordIn → RecordIn
  | .line record rest => .line (c :: record) rest
  | r => r

/-- The loop of `read_record`, with room for `len` characters. -/
def readRecord : ℕ → List UInt8 → RecordIn
  | 0, chars => .line [] chars
  | _ + 1, [] => .waits
  | len + 1, c :: chars =>
    if c = 13 ∨ c = 10 then .line [] chars
    else if c = 0 ∨ c = 3 then .abort
    else (readRecord len chars).cons c

/-- `SREC_MAXRECLEN`. -/
def srecMaxreclen : ℕ := 512 + 4

/-- The memory and the variables of `load_serial`. -/
structure Load where
  mem : ℕ → UInt8
  startAddr : ℕ
  endAddr : ℕ

/-- The data of a record go to memory. -/
def Load.storeData (s : Load) (storeAddr : ℕ) (data : List UInt8) : Load :=
  let last := (storeAddr + data.length + (2 ^ 64 - 1)) % 2 ^ 64
  { mem := store s.mem storeAddr data
    startAddr := if storeAddr < s.startAddr then storeAddr else s.startAddr
    endAddr := if last > s.endAddr then last else s.endAddr }

/-- The outcome of `load_serial`. -/
inductive LoadResult where
  /-- returns the address of the end record; the variable `filesize` is set -/
  | loaded (addr filesize : ℕ) (mem : ℕ → UInt8)
  /-- returns `~0` -/
  | aborted (mem : ℕ → UInt8)
  /-- copies a negative number of bytes -/
  | fault
  /-- waits for characters -/
  | waits

/-- The loop of `load_serial`. A record is at least one character, so as many rounds as there are
characters are enough. -/
def loadLoop (offset : ℕ) : ℕ → List UInt8 → Load → LoadResult
  | 0, _, _ => .waits
  | fuel + 1, chars, s =>
    match readRecord srecMaxreclen chars with
    | .waits => .waits
    | .abort => .aborted s.mem
    | .line record chars =>
      match srecDecode record with
      | .error _ => .aborted s.mem
      | .ok r =>
        match r.type with
        | .data2 | .data3 | .data4 =>
          if r.count < 0 then .fault
          else loadLoop offset fuel chars (s.storeData ((r.addr + offset) % 2 ^ 64) r.data)
        | .end2 | .end3 | .end4 =>
          .loaded r.addr ((s.endAddr + (2 ^ 64 - s.startAddr) + 1) % 2 ^ 64) s.mem
        | _ => loadLoop offset fuel chars s

/-- `load_serial` on the characters that arrive. -/
def loadSerial (offset : ℕ) (chars : List UInt8) (mem : ℕ → UInt8) : LoadResult :=
  loadLoop offset (chars.length + 1) chars ⟨mem, 2 ^ 64 - 1, 0⟩

/-! ### Writing records -/

/-- `hex[n]`. -/
def hexUpper (n : ℕ) : UInt8 := UInt8.ofNat (if n < 10 then 48 + n else 55 + n)

/-- The last `w` hexadecimal digits of a number. -/
def hexDigits : ℕ → ℕ → List UInt8
  | 0, _ => []
  | w + 1, n => hexDigits w (n / 16) ++ [hexUpper (n % 16)]

/-- A number in the format `%0wX`. -/
def fmtX (w n : ℕ) : List UInt8 := hexDigits (max w (Nat.log 16 n + 1)) n

/-- The variables of `save_serial`; `data` is the buffer of digits up to its terminator. -/
structure Save where
  address : ℕ
  reclen : ℕ
  checksum : ℕ
  data : List UInt8

/-- One byte is collected. -/
def Save.collect (mem : ℕ → UInt8) (s : Save) : Save :=
  let c := (mem ((s.address + s.reclen) % 2 ^ 64)).toNat
  { s with
    checksum := s.checksum + c
    data := s.data ++ [hexUpper (c / 16 % 16), hexUpper (c % 16)]
    reclen := s.reclen + 1 }

/-- The bytes of a number, lowest first, as they are added to the checksum. -/
def addedBytes (n x : ℕ) : ℕ := ((List.range n).map fun i => x / 2 ^ (8 * i) % 256).sum

/-- A data record, in the format `S3%02X%08lX%s%02X` and a line feed. -/
def Save.record (s : Save) : List UInt8 :=
  let length := 4 + s.reclen + 1
  let checksum := s.checksum + addedBytes 2 length + addedBytes 4 s.address
  [83, 51] ++ fmtX 2 length ++ fmtX 8 s.address ++ s.data ++ fmtX 2 (255 - checksum % 256) ++ [10]

/-- The variables after a record. -/
def Save.reset (s : Save) : Save := ⟨(s.address + s.reclen) % 2 ^ 64, 0, 0, []⟩

/-- The loop of `save_serial`: the records for `count` more bytes. -/
def saveLoop (mem : ℕ → UInt8) : ℕ → Save → List UInt8
  | 0, s => if s.reclen ≠ 0 then s.record else []
  | count + 1, s =>
    let s := s.collect mem
    if s.reclen = 16 ∨ count = 0 then s.record ++ if count = 0 then [] else saveLoop mem count s.reset
    else saveLoop mem count s

/-- `SREC3_START`, `S0030000FC` and a line feed. -/
def srec3Start : List UInt8 := [83, 48, 48, 51, 48, 48, 48, 48, 70, 67, 10]

/-- `SREC3_END`, `S70500000000FA` and a line feed. -/
def srec3End : List UInt8 := [83, 55, 48, 53, 48, 48, 48, 48, 48, 48, 48, 48, 70, 65, 10]

/-- A character on the line. -/
def putc (crlf : Bool) (c : UInt8) : List UInt8 := if crlf ∧ c = 10 then [13, 10] else [c]

/-- `save_serial`: the characters on the line. -/
def saveSerial (crlf : Bool) (mem : ℕ → UInt8) (address count : ℕ) : List UInt8 :=
  (srec3Start ++ saveLoop mem count ⟨address, 0, 0, []⟩ ++ srec3End).flatMap (putc crlf)

end UBoot.Serial
