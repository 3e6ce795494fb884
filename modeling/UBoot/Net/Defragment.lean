import UBoot.Common.LittleEndian

/-!
# IP reassembly

The model of `__NetDefragment`: the payload buffer is filled fragment by fragment, and the holes
that are still in it are kept as a doubly linked list of descriptors stored in the holes themselves.
A descriptor takes the first 8 bytes of its hole, neighbours are named by their index in 8-byte
blocks, and index 0 means that there is none. The static variables of the function are the state.
-/

namespace UBoot.Net

open UBoot.Common

/-- `IP_HDR_SIZE`. -/
def ipHdrSize : ℕ := 20

/-- `IP_PKTSIZE`: `CONFIG_NET_MAXDEFRAG` and the size of an NFS reply. -/
def ipPktSize : ℕ := 16384 + 100

/-- `IP_MAXUDP`. -/
def ipMaxUdp : ℕ := ipPktSize - ipHdrSize

/-- `IP_OFFS`. -/
def ipOffs : ℕ := 0x1fff

/-- `IP_FLAGS_MFRAG`. -/
def ipFlagsMfrag : ℕ := 0x2000

/-- The fields of the IP header that reassembly reads or writes, in host order. -/
structure IpHdr where
  ipLen : ℕ
  ipId : ℕ
  ipOff : ℕ
deriving DecidableEq, Repr

/-- A received packet: its header, whose length counts the header itself, and the bytes behind
it. -/
structure IpPacket extends IpHdr where
  indata : ℕ → UInt8
  hdr_le : ipHdrSize ≤ ipLen

/-- The static variables: the header and the payload of `pkt_buff`, `first_hole` and `total_len`. -/
structure Defrag where
  localip : IpHdr
  payload : ℕ → UInt8
  firstHole : ℕ
  totalLen : ℕ

section

variable (s : Defrag) (ip : IpPacket) (mem : ℕ → UInt8)

/-- What a call returns when the packet is complete: the header, `*lenp` and the bytes of the
payload that this length counts. -/
structure Reassembled where
  localip : IpHdr
  lenp : ℕ
  data : List UInt8
deriving DecidableEq, Repr

/-! ### Hole descriptors -/

/-- The little-endian `u16` at an address. -/
def u16At (a : ℕ) : ℕ := ofLe (load mem a 2)

/-- `payload[k].last_byte`. -/
def lastByte (k : ℕ) : ℕ := u16At mem (8 * k)

/-- `payload[k].next_hole`. -/
def nextHole (k : ℕ) : ℕ := u16At mem (8 * k + 2)

/-- `payload[k].prev_hole`. -/
def prevHole (k : ℕ) : ℕ := u16At mem (8 * k + 4)

def setLastByte (k v : ℕ) : ℕ → UInt8 := store mem (8 * k) (leBytes 2 v)

def setNextHole (k v : ℕ) : ℕ → UInt8 := store mem (8 * k + 2) (leBytes 2 v)

def setPrevHole (k v : ℕ) : ℕ → UInt8 := store mem (8 * k + 4) (leBytes 2 v)

/-- `payload[k] = payload[h]`, all 8 bytes. -/
def copyHole (k h : ℕ) : ℕ → UInt8 := store mem (8 * k) (load mem (8 * h) 8)

/-! ### The four shapes -/

/-- The fragment covers the hole: remove it. The flag says that it was the last one. -/
def removeHole (h : ℕ) : Defrag × Bool :=
  let mem := s.payload
  if prevHole mem h = 0 ∧ nextHole mem h = 0 then
    (s, true)
  else if prevHole mem h = 0 then
    ({ s with firstHole := nextHole mem h, payload := setPrevHole mem (nextHole mem h) 0 }, false)
  else if nextHole mem h = 0 then
    ({ s with payload := setNextHole mem (prevHole mem h) 0 }, false)
  else
    let mem := setPrevHole mem (nextHole mem h) (prevHole mem h)
    ({ s with payload := setNextHole mem (prevHole mem h) (nextHole mem h) }, false)

/-- The successor of the hole `newh`, if there is one, points back to it. -/
def pointBack (newh : ℕ) : ℕ → UInt8 :=
  if nextHole mem newh ≠ 0 then setPrevHole mem (nextHole mem newh) newh else mem

/-- The fragment covers the first part of the hole: move its descriptor to block `newh`. -/
def moveHole (h newh : ℕ) : Defrag :=
  let mem := pointBack (copyHole s.payload newh h) newh
  if prevHole mem newh ≠ 0 then
    { s with payload := setNextHole mem (prevHole mem newh) newh }
  else
    { s with payload := mem, firstHole := newh }

/-- The fragment lies in the middle of the hole: what is behind it becomes a hole of its own at
`newh`. -/
def splitHole (h start newh : ℕ) : Defrag :=
  let mem := copyHole s.payload newh h
  let mem := setLastByte mem h start
  let mem := setNextHole mem h newh
  let mem := setPrevHole mem newh h
  { s with payload := pointBack mem newh }

/-- Fix the hole list for a fragment of `len` bytes at block `offset8` that meets the hole `h`. -/
def fixHoles (offset8 len h : ℕ) : Defrag × Bool :=
  if offset8 ≤ h ∧ lastByte s.payload h ≤ offset8 * 8 + len then
    removeHole s h
  else if lastByte s.payload h ≤ offset8 * 8 + len then
    ({ s with payload := setLastByte s.payload h (offset8 * 8) }, false)
  else if offset8 ≤ h then
    (moveHole s h (offset8 + len / 8), false)
  else
    (splitHole s h (offset8 * 8) (offset8 + len / 8), false)

/-! ### One packet -/

/-- A packet of a new datagram starts over with one hole. -/
def startOver : Defrag :=
  if s.totalLen = 0 ∨ s.localip.ipId ≠ ip.ipId then
    { localip := ip.toIpHdr
      payload := setPrevHole (setNextHole (setLastByte s.payload 0 0xffff) 0 0) 0 0
      firstHole := 0
      totalLen := 0xffff }
  else s

/-- `while (h->last_byte < start)`, from the hole `h` on. The outer `none` stands for a loop that is
still running after more steps than there are indices, the inner one for "no hole that far away". -/
def findHole (start : ℕ) : ℕ → ℕ → Option (Option ℕ)
  | 0, _ => none
  | fuel + 1, h =>
    if lastByte mem h < start then
      if nextHole mem h = 0 then some none else findHole start fuel (nextHole mem h)
    else some (some h)

/-- A fragment without `IP_FLAGS_MFRAG` is the last one and truncates the hole. -/
def truncateHole (offset8 len h : ℕ) : Defrag :=
  if ip.ipOff &&& ipFlagsMfrag = 0 then
    { s with totalLen := offset8 * 8 + len, payload := setLastByte s.payload h (offset8 * 8 + len) }
  else s

/-- The fragment meets the hole `h`: fix the list, copy the fragment, and return the packet if no
hole is left. -/
def takeFragment (offset8 len h : ℕ) : Defrag × Option Reassembled :=
  let r := fixHoles (truncateHole s ip offset8 len h) offset8 len h
  let s := { r.1 with payload := store r.1.payload (offset8 * 8) (load ip.indata 0 len) }
  if r.2 then
    let s := { s with localip := { s.localip with ipLen := s.totalLen } }
    (s, some ⟨s.localip, s.totalLen + ipHdrSize, load s.payload 0 s.totalLen⟩)
  else (s, none)

/-- `__NetDefragment`: the state after the packet and what is returned, `none` standing for
`NULL`. -/
def netDefragment : Option (Defrag × Option Reassembled) :=
  let offset8 := ip.ipOff &&& ipOffs
  let len := ip.ipLen - ipHdrSize
  if ipMaxUdp < offset8 * 8 + len then
    some (s, none)
  else
    let s := startOver s ip
    (findHole s.payload (offset8 * 8) 65536 s.firstHole).map fun
      | none => (s, none)
      | some h =>
        if offset8 + (len + 7) / 8 ≤ h then (s, none) else takeFragment s ip offset8 len h

/-- The state after a sequence of packets none of which completes a datagram. -/
def quietly : Defrag → List IpPacket → Option Defrag
  | s, [] => some s
  | s, ip :: ips => (netDefragment s ip).bind fun r => if r.2.isSome then none else quietly r.1 ips

end

end UBoot.Net
