import Mathlib.Algebra.Group.Int.Defs
import Mathlib.Data.Int.Basic
import UBoot.Common.Memory

/-!
# The TFTP client

The model of `net/tftp.c` with `CONFIG_CMD_TFTPPUT`: the static variables of the file and the
globals it reads and writes are the state, a received packet or a timeout is a step, and the packets
that are sent are the output of the step. `ulong` is 64 bits and `int` 32 bits wide. What is only
printed is left out.
-/

namespace UBoot.Net

open UBoot.Common

/-- `WELL_KNOWN_PORT`. -/
def wellKnownPort : ℕ := 69

/-- `TIMEOUT_COUNT`. -/
def timeoutCount : ℕ := 10

/-- `TFTP_BLOCK_SIZE`. -/
def tftpBlockSize : ℕ := 512

/-- `TFTP_SEQUENCE_SIZE`. -/
def tftpSequenceSize : ℕ := 2 ^ 16

/-- `TftpState`. -/
inductive TftpState
  | sendRrq
  | data
  | tooLarge
  | badMagic
  | oack
  | recvWrq
  | sendWrq
deriving DecidableEq, Repr

/-- `net_state`; `restart` stands for everything that `NetStartAgain` may do. -/
inductive NetState
  | running
  | restart
  | success
  | fail
deriving DecidableEq, Repr

/-- A packet that is sent, with the ports it is sent from and to. -/
structure Udp where
  sport : ℕ
  dport : ℕ
  data : List UInt8
deriving DecidableEq, Repr

/-- The static variables of `tftp.c` and the globals it works on. -/
structure Tftp where
  tftpFilename : List UInt8
  tftpTimeoutMSecs : ℕ
  tftpRrqTimeoutCountMax : ℕ
  tftpBlkSizeOption : ℕ
  tftpRemotePort : ℕ
  tftpOurPort : ℕ
  tftpTimeoutCount : ℕ
  tftpTimeoutCountMax : ℕ
  tftpBlock : ℕ
  tftpLastBlock : ℕ
  tftpBlockWrap : ℕ
  tftpBlockWrapOffset : ℕ
  tftpState : TftpState
  tftpBlkSize : ℕ
  tftpWriting : Bool
  tftpFinalBlock : Bool
  loadAddr : ℕ
  saveAddr : ℕ
  netBootFileXferSize : ℕ
  mem : ℕ → UInt8
  netState : NetState

section

variable (c : Tftp) (src : ℕ) (pkt : List UInt8)

/-! ### Packets -/

/-- `htons`: the two bytes of a number, highest first. -/
def htons (n : ℕ) : List UInt8 := [UInt8.ofNat (n / 256 % 256), UInt8.ofNat (n % 256)]

/-- `ntohs` of the first two bytes. -/
def ntohs (p : List UInt8) : ℕ := (p.getD 0 0).toNat * 256 + (p.getD 1 0).toNat

def text (s : String) : List UInt8 := s.toUTF8.data.toList

/-- A string of a request, with its terminator. -/
def cstr (s : String) : List UInt8 := text s ++ [0]

/-- A request: the file name, the mode and the options. -/
def request (opcode : ℕ) : List UInt8 :=
  htons opcode ++ c.tftpFilename ++ [0] ++ cstr "octet" ++ cstr "timeout" ++
    cstr (toString (c.tftpTimeoutMSecs / 1000)) ++ cstr "blksize" ++ cstr (toString c.tftpBlkSizeOption)

/-- The value of a digit of any base, as `simple_strtoul` reads it. -/
def digitValue (b : UInt8) : Option ℕ :=
  if 48 ≤ b ∧ b ≤ 57 then some (b.toNat - 48)
  else if 97 ≤ b ∧ b ≤ 102 then some (b.toNat - 87)
  else if 65 ≤ b ∧ b ≤ 70 then some (b.toNat - 55)
  else none

/-- The digits at the front of a text, read from the left. -/
def readDigits (base : ℕ) : ℕ → List UInt8 → ℕ
  | acc, [] => acc
  | acc, b :: p =>
    match digitValue b with
    | some v => if v < base then readDigits base ((acc * base + v) % 2 ^ 64) p else acc
    | none => acc

/-- `simple_strtoul(cp, NULL, 10)`. -/
def simpleStrtoul (p : List UInt8) : ℕ :=
  match p with
  | 48 :: 120 :: b :: rest => if (digitValue b).isSome then readDigits 16 0 (b :: rest) else 0
  | p => readDigits 10 0 p

/-- The value of `TftpBlkSize` after the options of an OACK have been looked through. -/
def oackBlkSize (blkSize : ℕ) (pkt : List UInt8) : ℕ :=
  (List.range (pkt.length - 8)).foldl
    (fun size i => if (pkt.drop i).take 8 = cstr "blksize" then
      simpleStrtoul (pkt.drop (i + 8)) % 2 ^ 16 else size) blkSize

/-! ### Blocks -/

/-- An `int` product, converted to `ulong`. -/
def intMul (a b : ℤ) : ℕ := ((Int.bmod (a * b) (2 ^ 32)) % (2 ^ 64)).toNat

/-- `store_block`. -/
def storeBlock (block : ℤ) (src : List UInt8) : Tftp :=
  let offset := (intMul block c.tftpBlkSize + c.tftpBlockWrapOffset) % 2 ^ 64
  let newsize := (offset + src.length) % 2 ^ 64
  { c with
    mem := store c.mem ((c.loadAddr + offset) % 2 ^ 64) src
    netBootFileXferSize := if c.netBootFileXferSize < newsize then newsize else c.netBootFileXferSize }

/-- `new_transfer`. -/
def newTransfer : Tftp :=
  { c with tftpLastBlock := 0, tftpBlockWrap := 0, tftpBlockWrapOffset := 0, tftpFinalBlock := false }

/-- `load_block`: the product is an `unsigned` one. -/
def loadBlock (block len : ℕ) : List UInt8 :=
  let offset := ((block + 2 ^ 32 - 1) % 2 ^ 32 * len % 2 ^ 32 + c.tftpBlockWrapOffset) % 2 ^ 64
  let tosend := min ((c.netBootFileXferSize + 2 ^ 64 - offset) % 2 ^ 64) len
  load c.mem ((c.saveAddr + offset) % 2 ^ 64) tosend

/-- `update_block_number`. -/
def updateBlockNumber : Tftp :=
  if c.tftpBlock = 0 ∧ c.tftpLastBlock ≠ 0 then
    { c with
      tftpBlockWrap := (c.tftpBlockWrap + 1) % 2 ^ 64
      tftpBlockWrapOffset := (c.tftpBlockWrapOffset + c.tftpBlkSize * tftpSequenceSize) % 2 ^ 64
      tftpTimeoutCount := 0 }
  else c

/-- `tftp_complete`. -/
def tftpComplete : Tftp := { c with netState := .success }

/-- `NetStartAgain`. -/
def netStartAgain : Tftp := { c with netState := .restart }

/-! ### Sending -/

/-- The state and the bytes that `TftpSend` puts into the packet. -/
def tftpSendData : Tftp × List UInt8 :=
  match c.tftpState with
  | .sendRrq => (c, request c 1)
  | .sendWrq => (c, request c 2)
  | .oack | .recvWrq | .data =>
    if c.tftpWriting then
      let loaded := loadBlock c (c.tftpBlock % 2 ^ 32) c.tftpBlkSize
      ({ c with tftpFinalBlock := loaded.length < c.tftpBlkSize }, htons 3 ++
        htons (c.tftpBlock % 2 ^ 16) ++ loaded)
    else (c, htons 4 ++ htons (c.tftpBlock % 2 ^ 16))
  | .tooLarge => (c, htons 5 ++ htons 3 ++ cstr "File too large")
  | .badMagic => (c, htons 5 ++ htons 2 ++ cstr "File has bad magic")

/-- `TftpSend`. -/
def tftpSend : Tftp × List Udp :=
  ((tftpSendData c).1, [⟨c.tftpOurPort, c.tftpRemotePort, (tftpSendData c).2⟩])

/-! ### Receiving -/

/-- `TFTP_ACK`. -/
def ackPacket : Tftp × List Udp :=
  if c.tftpWriting then
    if c.tftpFinalBlock then (tftpComplete c, [])
    else
      let block := ntohs pkt
      let ackOk := c.tftpBlock = block
      let c := updateBlockNumber { c with tftpBlock := (block + 1) % 2 ^ 16 }
      if ackOk then tftpSend c else (c, [])
  else (c, [])

/-- `TFTP_OACK`. -/
def oackPacket : Tftp × List Udp :=
  let c := { c with
    tftpState := .oack
    tftpRemotePort := src
    tftpBlkSize := oackBlkSize c.tftpBlkSize pkt }
  if c.tftpWriting then
    tftpSend { c with tftpState := .data, tftpBlock := (c.tftpBlock + 1) % 2 ^ 64 }
  else tftpSend c

/-- What is done with the data of a block, once the transfer is under way. -/
def receiveBlock (src : List UInt8) : Tftp × List Udp :=
  if c.tftpBlock = c.tftpLastBlock then (c, [])
  else
    let c := { c with tftpLastBlock := c.tftpBlock, tftpTimeoutCountMax := timeoutCount }
    let r := tftpSend (storeBlock c ((c.tftpBlock : ℤ) - 1) src)
    if src.length < c.tftpBlkSize then (tftpComplete r.1, r.2) else r

/-- `TFTP_DATA`, for block number `block`. -/
def dataPacket (block : ℕ) (data : List UInt8) : Tftp × List Udp :=
  let c := updateBlockNumber { c with tftpBlock := block }
  if c.tftpState = .sendRrq ∨ c.tftpState = .oack ∨ c.tftpState = .recvWrq then
    let c := newTransfer { c with tftpState := .data, tftpRemotePort := src }
    if c.tftpBlock ≠ 1 then (netStartAgain c, []) else receiveBlock c data
  else receiveBlock c data

/-- `TFTP_ERROR`: file not found and access denied are final. -/
def errorPacket (code : ℕ) : Tftp :=
  if code = 1 ∨ code = 2 then { c with netState := .fail } else netStartAgain c

/-- `TftpHandler`, for a packet to port `dest` from port `src`. -/
def tftpHandler (dest src : ℕ) (pkt : List UInt8) : Tftp × List Udp :=
  if dest ≠ c.tftpOurPort then (c, [])
  else if c.tftpState ≠ .sendRrq ∧ src ≠ c.tftpRemotePort ∧ c.tftpState ≠ .recvWrq ∧
    c.tftpState ≠ .sendWrq then (c, [])
  else if pkt.length < 2 then (c, [])
  else
    let opcode := ntohs pkt
    let body := pkt.drop 2
    if opcode = 4 then ackPacket c body
    else if opcode = 6 then oackPacket c src body
    else if opcode = 3 then
      if body.length < 2 then (c, []) else dataPacket c src (ntohs body) (body.drop 2)
    else if opcode = 5 then (errorPacket c (ntohs body), [])
    else (c, [])

/-- `TftpTimeout`. -/
def tftpTimeout : Tftp × List Udp :=
  let c := { c with tftpTimeoutCount := c.tftpTimeoutCount + 1 }
  if c.tftpTimeoutCountMax < c.tftpTimeoutCount then (netStartAgain c, [])
  else if c.tftpState ≠ .recvWrq then tftpSend c
  else (c, [])

/-- `TftpStart`, with `NetBootFileXferSize` cleared by `NetLoop`; `saveSize` is given for an upload.
The port at our end is drawn from the timer and taken as it is. -/
def tftpStart (saveSize : Option ℕ) : Tftp × List Udp :=
  let c := { c with netBootFileXferSize := 0, netState := .running }
  let c := match saveSize with
    | some size => newTransfer { c with
        tftpWriting := true, netBootFileXferSize := size, tftpState := .sendWrq }
    | none => { c with tftpWriting := false, tftpState := .sendRrq }
  tftpSend { c with
    tftpRemotePort := wellKnownPort
    tftpTimeoutCount := 0
    tftpTimeoutCountMax := c.tftpRrqTimeoutCountMax
    tftpBlock := 0
    tftpBlkSize := tftpBlockSize }

end

end UBoot.Net
