import Mathlib.Algebra.GroupWithZero.Nat
import UBoot.Common.Memory

/-!
# The Kermit receiver

Reference: `common/cmd_load.c::k_recv`, `k_data_char`, `handle_send_packet`, `send_ack`,
`send_nack`.

`k_recv` is a machine that is fed characters. A `Phase` is a place of the source where it calls
`getc`, with the local variables that are still needed there; `Phase.next` is what the next
character leads to. A `char` is unsigned. The data mode `os_data_state` is always 0 and is left out.
-/

namespace UBoot.Serial

open UBoot.Common

/-! ### Characters -/

/-- `START_CHAR`. -/
def startChar : UInt8 := 0x01

/-- `ETX_CHAR`. -/
def etxChar : UInt8 := 0x03

/-- `END_CHAR`. -/
def endChar : UInt8 := 0x0D

/-- `K_ESCAPE`. -/
def kEscape : UInt8 := 0x23

/-- `SEND_TYPE`, an `S`. -/
def sendType : UInt8 := 83

/-- `DATA_TYPE`, a `D`. -/
def dataType : UInt8 := 68

/-- `ACK_TYPE`, a `Y`. -/
def ackType : UInt8 := 89

/-- `NACK_TYPE`, an `N`. -/
def nackType : UInt8 := 78

/-- `BREAK_TYPE`, a `B`. -/
def breakType : UInt8 := 66

/-- `tochar`. -/
def tochar (x : ℕ) : UInt8 := UInt8.ofNat (x + 32)

/-- `untochar`. -/
def untochar (c : UInt8) : ℕ := (c - 32).toNat

/-- `(new_char & 0xE0) == 0`. -/
def IsControl (c : UInt8) : Prop := c &&& 0xE0 = 0

instance (c : UInt8) : Decidable (IsControl c) := inferInstanceAs (Decidable (_ = _))

/-- `ktrans`. -/
def ktrans (c : UInt8) : UInt8 :=
  if c &&& 0x60 = 0x40 then c &&& 0xBF
  else if c &&& 0x7F = 0x3F then c ||| 0x40
  else c

/-- The check character for a sum of characters. -/
def checkChar (sum : ℕ) : UInt8 := tochar ((sum + sum / 64 % 4) % 64)

/-! ### Reading packets -/

/-- Where `k_recv` waits for a character. -/
inductive Phase where
  | start
  | len
  | seq (sum length : ℕ)
  | type (sum length : ℕ)
  | lenHi (sum : ℕ)
  | lenLo (sum hi : ℕ)
  | headCheck (sum length : ℕ)
  | data (sum length : ℕ)
  | check (sum : ℕ)
  | fin
deriving DecidableEq

/-- What a character leads to. -/
inductive Next where
  /-- the next place that waits -/
  | goes (phase : Phase)
  /-- `packet_error` -/
  | error
  /-- `END_CHAR` behind a right checksum -/
  | packet
  /-- Control-C -/
  | aborted
deriving DecidableEq

/-- The loop `while (length > 1)`, or what follows it. -/
def body (sum length : ℕ) : Phase := if 1 < length then .data sum length else .check sum

/-- What a character leads to. The variable `length` of `seq` and `type` has its value from the
packet; it is decremented in both places, and a difference below zero ends the loop as zero does. -/
def Phase.next : Phase → UInt8 → Next
  | .start, c => if c = startChar then .goes .len else if c = etxChar then .aborted else .goes .start
  | .len, c => if IsControl c then .error else .goes (.seq c.toNat (untochar c))
  | .seq sum length, c => if IsControl c then .error else .goes (.type (sum + c.toNat) length)
  | .type sum length, c =>
    if IsControl c then .error
    else if length = 0 then .goes (.lenHi (sum + c.toNat))
    else .goes (body (sum + c.toNat) (length - 2))
  | .lenHi sum, c => if IsControl c then .error else .goes (.lenLo (sum + c.toNat) (untochar c))
  | .lenLo sum hi, c =>
    if IsControl c then .error else .goes (.headCheck (sum + c.toNat) (hi * 95 + untochar c))
  | .headCheck sum length, c =>
    if IsControl c then .error
    else if c ≠ checkChar sum then .error
    else .goes (body (sum + c.toNat) length)
  | .data sum length, c => if IsControl c then .error else .goes (body (sum + c.toNat) (length - 1))
  | .check sum, c => if IsControl c then .error else if c ≠ checkChar sum then .error else .goes .fin
  | .fin, c => if c ≠ endChar then .error else .packet

/-! ### The state of the receiver -/

/-- The variables that `k_data_save` and `k_data_restore` copy. -/
structure DataPos where
  /-- `k_data_escape` -/
  escape : Bool
  /-- `os_data_addr` -/
  addr : ℕ
deriving DecidableEq

/-- What the sender asks for. -/
structure His where
  eol : UInt8
  padCount : ℕ
  padChar : UInt8
  quote : UInt8
deriving DecidableEq

/-- The defaults of `k_recv` and `handle_send_packet`. -/
def His.default : His := ⟨endChar, 0, 0, kEscape⟩

/-- The state of `k_recv`. -/
structure KRecv where
  phase : Phase
  kState : UInt8
  kStateSaved : UInt8
  n : ℕ
  /-- `last_n`; nothing stands for -1 -/
  lastN : Option ℕ
  pos : DataPos
  posSaved : DataPos
  mem : ℕ → UInt8
  /-- the part of `send_parms` below `send_ptr` -/
  sendParms : List UInt8
  his : His
  /-- the value that `k_recv` has returned -/
  returned : Option ℕ

/-- The state in front of the main loop. -/
def KRecv.init (mem : ℕ → UInt8) (start : ℕ) : KRecv :=
  { phase := .start, kState := 0, kStateSaved := 0, n := 0, lastN := none, pos := ⟨false, start⟩,
    posSaved := ⟨false, start⟩, mem, sendParms := [], his := .default, returned := none }

section

variable (s : KRecv) (c : UInt8)

/-- `bin_data_char`. -/
def KRecv.binDataChar : KRecv :=
  { s with mem := Function.update s.mem s.pos.addr c, pos := { s.pos with addr := s.pos.addr + 1 } }

/-- `k_data_char`. -/
def KRecv.kDataChar : KRecv :=
  if s.pos.escape then
    let s := s.binDataChar (ktrans c)
    { s with pos := { s.pos with escape := false } }
  else if c = s.his.quote then { s with pos := { s.pos with escape := true } }
  else s.binDataChar c

/-- The checkpoint behind the sequence number. -/
def KRecv.checkpoint (n : ℕ) : KRecv :=
  if s.lastN = some n then { s with n, kState := s.kStateSaved, pos := s.posSaved }
  else { s with n, lastN := some n, kStateSaved := s.kState, posSaved := s.pos }

/-- A character of a send packet is kept. The last place of the buffer is filled again and again. -/
def KRecv.sendParm : KRecv :=
  if s.sendParms.length < 19 then { s with sendParms := s.sendParms ++ [c] } else s

/-- What is done with a character that is in its place. -/
def KRecv.char : KRecv :=
  match s.phase with
  | .seq _ _ => s.checkpoint (untochar c)
  | .type _ _ => { s with kState := c }
  | .data _ _ => if s.kState = dataType then s.kDataChar c else if s.kState = sendType then
      s.sendParm c else s
  | _ => s

/-! ### Replies -/

/-- A packet for the sender, and the characters on the line. -/
structure Reply where
  type : UInt8
  n : ℕ
  text : List UInt8
deriving DecidableEq

/-- `chk1`. -/
def chk1 (buffer : List UInt8) : ℕ :=
  let total := ((buffer.takeWhile (· ≠ 0)).map UInt8.toNat).sum
  (total + total / 64 % 4) % 64

/-- `send_ack`, `send_nack` and the end of `handle_send_packet`. -/
def reply (his : His) (type : UInt8) (n : ℕ) (fields : List UInt8) : Reply :=
  let counted := [tochar (3 + fields.length), tochar n, type] ++ fields
  let packet := [startChar] ++ counted ++ [tochar (chk1 counted), his.eol]
  ⟨type, n, List.replicate his.padCount his.padChar ++ packet.takeWhile (· ≠ 0)⟩

/-- `handle_send_packet`: what the sender asks for, and the fields of the reply. -/
def handleSendPacket (parms : List UInt8) : His × List UInt8 :=
  -- the last character is ignored if it filled the buffer
  let parms := if parms.length = 19 then parms.dropLast else parms
  ({ padCount := (parms[2]?.map untochar).getD 0
     padChar := (parms[3]?.map ktrans).getD 0
     eol := (parms[4]?.map (· - 32)).getD endChar
     quote := parms[5]?.getD kEscape },
    [tochar 94, tochar 1, tochar 0, 0x40, tochar 13, 35, 78, 49, 78].take parms.length ++
      if 10 ≤ parms.length then [tochar 2, tochar 0, tochar 94, tochar 94] else [])

end

/-! ### The main loop -/

variable (start : ℕ)

/-- `packet_error`. -/
def KRecv.packetError (s : KRecv) : KRecv × Option Reply :=
  ({ s with phase := .start, sendParms := [], kState := s.kStateSaved, pos := s.posSaved },
    some (reply s.his nackType s.n []))

/-- The end of a good packet. -/
def KRecv.packetGood (s : KRecv) : KRecv × Option Reply :=
  if s.kState = sendType then
    let (his, fields) := handleSendPacket s.sendParms
    ({ s with phase := .start, sendParms := [], his }, some (reply his ackType s.n fields))
  else
    ({ s with
        phase := .start
        sendParms := []
        returned := if s.kState = breakType then some (s.pos.addr - start) else none },
      some (reply s.his ackType s.n []))

/-- One character for `k_recv`. -/
def KRecv.getc (s : KRecv) (c : UInt8) : KRecv × Option Reply :=
  if s.returned ≠ none then (s, none)
  else
    match s.phase.next c with
    | .goes phase => ({ s.char c with phase }, none)
    | .error => s.packetError
    | .packet => s.packetGood start
    | .aborted => ({ s with returned := some 0 }, none)

/-- The state after some characters. -/
def KRecv.recv (s : KRecv) : List UInt8 → KRecv
  | [] => s
  | c :: chars => (s.getc start c).1.recv chars

/-- The replies to some characters. -/
def KRecv.replies (s : KRecv) : List UInt8 → List Reply
  | [] => []
  | c :: chars => (s.getc start c).2.toList ++ (s.getc start c).1.replies chars

end UBoot.Serial
