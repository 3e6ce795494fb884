import Mathlib.Logic.Relation
import UBoot.Serial.KermitFrame

/-!
# Kermit downloads over a line

The sender that `k_recv` expects: a send packet, the header of the file, its data, the end of the
file and a break. Control characters of the file are quoted, packets are numbered modulo 64, and a
packet is sent again until it is acknowledged. The line may damage packets and lose
acknowledgements.
-/

namespace UBoot.Serial

open UBoot.Common

/-! ### The sender -/

/-- A control character, with or without the eighth bit. -/
def IsCtl (c : UInt8) : Prop := c &&& 0x60 = 0 ∨ c &&& 0x7F = 0x7F

instance (c : UInt8) : Decidable (IsCtl c) := inferInstanceAs (Decidable (_ ∨ _))

/-- A character that stands for itself behind a quote. -/
def IsLiteral (c : UInt8) : Prop := c &&& 0x60 ≠ 0x40 ∧ c &&& 0x7F ≠ 0x3F

instance (c : UInt8) : Decidable (IsLiteral c) := inferInstanceAs (Decidable (_ ∧ _))

/-- A text that a file is sent as. Control characters have to be quoted, and so has the quote
itself; other characters may be. -/
inductive Quotes (q : UInt8) : List UInt8 → List UInt8 → Prop where
  | nil : Quotes q [] []
  | plain {b file text} : ¬ IsCtl b → b ≠ q → Quotes q file text → Quotes q (b :: file) (b :: text)
  | control {b file text} : IsCtl b → Quotes q file text → Quotes q (b :: file) (q :: (b ^^^ 0x40) :: text)
  | literal {b file text} : ¬ IsCtl b → IsLiteral b → Quotes q file text →
      Quotes q (b :: file) (q :: b :: text)

/-- A packet; `long` says whether the extended length is used. -/
structure Packet where
  type : UInt8
  data : List UInt8
  long : Bool
deriving DecidableEq

/-- The sum of some characters. -/
def charSum (chars : List UInt8) : ℕ := (chars.map UInt8.toNat).sum

/-- What stands in front of the data. -/
def Packet.head (p : Packet) (n : ℕ) : List UInt8 :=
  if p.long then
    let counted := [tochar 0, tochar n, p.type, tochar ((p.data.length + 1) / 95),
      tochar ((p.data.length + 1) % 95)]
    counted ++ [checkChar (charSum counted)]
  else [tochar (p.data.length + 3), tochar n, p.type]

/-- A packet on the line, with its number. -/
def Packet.text (p : Packet) (n : ℕ) : List UInt8 :=
  startChar :: (p.head n ++ p.data ++ [checkChar (charSum (p.head n ++ p.data)), endChar])

/-- A packet of a legal length, in characters that are not control characters. -/
structure Packet.Legal (p : Packet) : Prop where
  type : ¬ IsCtl p.type
  data : ∀ c ∈ p.data, ¬ IsCtl c
  length : p.data.length + 3 ≤ 94 ∨ p.long ∧ p.data.length + 1 < 95 * 95

/-- The part of the text of the file that a packet carries. -/
def Packet.carries (p : Packet) : List UInt8 := if p.type = dataType then p.data else []

/-- The characters that may be used as a quote. -/
def IsQuote (q : UInt8) : Prop := 33 ≤ q ∧ q ≤ 62 ∨ 96 ≤ q ∧ q ≤ 126

instance (q : UInt8) : Decidable (IsQuote q) := inferInstanceAs (Decidable (_ ∨ _))

/-- What a sender does with a file. -/
structure Download where
  file : List UInt8
  send : Packet
  header : Packet
  data : List Packet
  eof : Packet
  brk : Packet
  /-- the quote that the send packet names -/
  quote : UInt8
  send_type : send.type = sendType
  header_type : header.type = 70
  data_type : ∀ p ∈ data, p.type = dataType
  eof_type : eof.type = 90
  brk_type : brk.type = breakType
  quote_eq : quote = send.data[5]?.getD kEscape
  isQuote : IsQuote quote
  legal : ∀ p ∈ send :: header :: (data ++ [eof, brk]), p.Legal
  quotes : Quotes quote file (data.flatMap Packet.data)

/-- All packets in their order. -/
def Download.packets (d : Download) : List Packet := d.send :: d.header ::
    (d.data ++ [d.eof, d.brk])

/-! ### The line -/

/-- A line. Characters may be damaged but not the sequence number, and a packet that comes out of
damaged ones is not good. -/
structure Line where
  damages : List UInt8 → List UInt8 → Prop
  length_eq : ∀ {text text' : List UInt8}, damages text text' → text'.length = text.length
  number_eq : ∀ {text text' : List UInt8}, damages text text' → text'[2]? = text[2]?
  caught : ∀ {text : List UInt8} {texts : List (List UInt8)}, (∀ t ∈ texts, damages text t) →
    frame .start texts.flatten ≠ .packet

/-- Sender and receiver. -/
structure System where
  /-- the packet that is being sent -/
  i : ℕ
  k : KRecv

/-- A packet is sent. The sender goes on to the next one if an acknowledgement arrives, which may be
lost. -/
inductive Round (line : Line) (start : ℕ) (d : Download) : System → System → Prop where
  | again {i : ℕ} {k : KRecv} {p : Packet} {t : List UInt8} (hp : d.packets[i]? = some p)
      (ht : t = p.text (i % 64) ∨ line.damages (p.text (i % 64)) t) :
      Round line start d ⟨i, k⟩ ⟨i, k.recv start t⟩
  | next {i : ℕ} {k : KRecv} {p : Packet} {t : List UInt8} {r : Reply} (hp : d.packets[i]? = some p)
      (ht : t = p.text (i % 64) ∨ line.damages (p.text (i % 64)) t)
      (hr : r ∈ k.replies start t) (htype : r.type = ackType) (hn : r.n = i % 64) :
      Round line start d ⟨i, k⟩ ⟨i + 1, k.recv start t⟩

/-- Whenever `k_recv` returns, the file is in memory and its length is the value. -/
def Delivers (line : Line) (start : ℕ) (mem : ℕ → UInt8) (d : Download) : Prop :=
  ∀ sys, Relation.ReflTransGen (Round line start d) ⟨0, .init mem start⟩ sys →
    ∀ size, sys.k.returned = some size → size = d.file.length ∧ load sys.k.mem start size = d.file

/-- What damaged copies of a packet must not do to a receiver that waits for it: to read another
header first, as far as data are concerned, or a Control-C between packets. -/
structure SafeCopies (d : Download) (i : ℕ) (p : Packet) (texts : List (List UInt8)) : Prop where
  /-- data of the packet before are not given up -/
  keeps : ∀ p', 0 < i → d.packets[i - 1]? = some p' → p'.carries ≠ [] →
    firstHeader .start (texts.flatten ++ p.text (i % 64)) ≠ some .early ∧
      firstHeader .start (texts.flatten ++ p.text (i % 64)) ≠ some (.number ((i - 1) % 64))
  /-- data of the packet are not taken twice -/
  once : p.carries ≠ [] → ∀ m, firstHeader .start (texts.flatten ++ p.text (i % 64)) = some
    (.number m) → m = i % 64
  /-- the download is not given up -/
  goesOn : d.file ≠ [] → frame .start texts.flatten ≠ .aborted

/-- A line that does nothing harmful to any packet of any sender. -/
def Line.Safe (line : Line) : Prop :=
  ∀ (d : Download) (i : ℕ) (p : Packet) (texts : List (List UInt8)), d.packets[i]? = some p →
    (∀ t ∈ texts, line.damages (p.text (i % 64)) t) → SafeCopies d i p texts

end UBoot.Serial
