import UBoot.Common.Align
import UBoot.Common.LittleEndian

/-!
# The DHCP client

Reference: `net/bootp.c`, `net/bootp.h`, `include/net.h`, for a machine with a `ulong` of 8 bytes,
lowest first.

`struct Bootp_t` is not packed and its field `bp_id` is a `ulong`, so the fields behind it are not
where they are in a packet on the wire. A packet is the memory from its first byte on. The boot file
prefix, the second name server and the options for the time are not configured. Timeouts, and what
`net_auto_load` starts, are left out.
-/

namespace UBoot.Net

open UBoot.Common

/-! ### The layout -/

/-- Size and alignment of the fields of `struct Bootp_t`, for a `ulong` of this size. -/
def bootpFields (ulong : ℕ) : List (ℕ × ℕ) :=
  [(1, 1), (1, 1), (1, 1), (1, 1), (ulong, ulong), (2, 2), (2, 2), (4, 4), (4, 4), (4, 4),
    (4, 4), (16, 1), (64, 1), (128, 1), (312, 1)]

/-- Where fields are that are laid out one after the other. -/
def offsetsFrom : ℕ → List (ℕ × ℕ) → List ℕ
  | _, [] => []
  | pos, (size, align) :: fields => roundUp pos align :: offsetsFrom (roundUp pos align + size) fields

/-- `offsetof(struct Bootp_t, bp_id)`. -/
def bpId : ℕ := 8

/-- `offsetof(struct Bootp_t, bp_secs)`. -/
def bpSecs : ℕ := 16

/-- `offsetof(struct Bootp_t, bp_yiaddr)`. -/
def bpYiaddr : ℕ := 24

/-- `offsetof(struct Bootp_t, bp_siaddr)`. -/
def bpSiaddr : ℕ := 28

/-- `offsetof(struct Bootp_t, bp_chaddr)`. -/
def bpChaddr : ℕ := 36

/-- `offsetof(struct Bootp_t, bp_file)`. -/
def bpFile : ℕ := 116

/-- `offsetof(struct Bootp_t, bp_vend)`. -/
def bpVend : ℕ := 244

/-- `OPT_FIELD_SIZE`. -/
def optFieldSize : ℕ := 312

/-- `BOOTP_HDR_SIZE`. -/
def bootpHdrSize : ℕ := 560

example : offsetsFrom 0 (bootpFields 8) =
    [0, 1, 2, 3, bpId, bpSecs, 18, 20, bpYiaddr, bpSiaddr, 32, bpChaddr, 52, bpFile, bpVend] := by
  decide

example : bootpHdrSize = roundUp (bpVend + optFieldSize) 8 := by decide

/-! ### The state -/

/-- `dhcp_state_t`. -/
inductive DhcpState where
  | init
  | initReboot
  | rebooting
  | selecting
  | requesting
  | rebinding
  | bound
  | renewing
deriving DecidableEq

/-- The variables that replies are copied to. Addresses are in network byte order. -/
structure NetVars where
  netOurIP : List UInt8
  netServerIP : List UInt8
  netServerEther : List UInt8
  netOurSubnetMask : List UInt8
  netOurGatewayIP : List UInt8
  netOurDNSIP : List UInt8
  netDHCPServerIP : List UInt8
  netOurHostName : List UInt8
  netOurRootPath : List UInt8
  bootFile : List UInt8
  dhcpLeasetime : ℕ
deriving DecidableEq

section

variable (net : NetVars)

/-- The client. `ids` is the part of `bootp_ids` below `bootp_num_ids`. -/
structure Dhcp where
  state : DhcpState
  ids : List ℕ
  net : NetVars
deriving DecidableEq

/-- A packet that was received, with the memory from it on, of which `room` bytes exist. -/
structure Received where
  buf : ℕ → UInt8
  room : ℕ
  dest : ℕ
  src : ℕ
  len : ℕ
  /-- `et_src` of the frame -/
  ether : List UInt8

variable (p : Received)

/-- `NetReadLong`. -/
def netReadLong (buf : ℕ → UInt8) (pos : ℕ) : ℕ := ofLe (load buf pos 8)

/-- `htonl`, which is a number of 32 bits. -/
def htonl (x : ℕ) : ℕ := ofLe (leBytes 4 x).reverse

/-- `BOOTP_VENDOR_MAGIC`. -/
def bootpVendorMagic : ℕ := 0x63825363

/-! ### Requests -/

/-- `bootp_add_id`. -/
def bootpAddId (ids : List ℕ) (id : ℕ) : List ℕ := if 4 ≤ ids.length then ids.drop 1 ++
    [id] else ids ++ [id]

/-- The characters that `copy_filename` copies. -/
def copyFilename (src : List UInt8) (size : ℕ) : List UInt8 :=
  match src with
  | 34 :: src => (src.takeWhile fun c => c ≠ 0 ∧ c ≠ 34).take (size - 2)
  | src => (src.takeWhile fun c => c ≠ 0 ∧ c ≠ 34).take (size - 1)

/-- The identifier of a request: the last four bytes of the Ethernet address, and the time. -/
def bootpIdOf (ether : List UInt8) (timer : ℕ) :
    ℕ := htonl (ofLe ((ether.take 6).drop 2).reverse + timer)

/-- `BootpRequest`: the client that waits for offers, and the packet that is sent. The options are
parameters. -/
def bootpRequest (s : Dhcp) (ether : List UInt8) (timer : ℕ) (options : List UInt8) :
    Dhcp × (ℕ → UInt8) :=
  let id := bootpIdOf ether timer
  let pkt := store (fun _ => 0) 0 [1, 1, 6, 0]
  let pkt := store pkt bpSecs (leBytes 2 (timer / 1000)).reverse
  let pkt := store pkt bpChaddr (ether.take 6)
  let pkt := store pkt bpFile (copyFilename s.net.bootFile 128)
  let pkt := store pkt bpVend options
  ({ s with state := .selecting, ids := bootpAddId s.ids id }, store pkt bpId (leBytes 8 id))

/-! ### Replies -/

/-- `BootpCheckPkt`. -/
def bootpCheckPkt (ids : List ℕ) (p : Received) : ℤ :=
  if p.dest ≠ 68 ∨ p.src ≠ 67 then -1
  else if p.len < bootpHdrSize - optFieldSize then -2
  else if p.buf 0 ≠ 1 ∧ p.buf 0 ≠ 2 ∧ p.buf 0 ≠ 5 ∧ p.buf 0 ≠ 6 then -3
  else if p.buf 1 ≠ 1 then -4
  else if p.buf 2 ≠ 6 then -5
  else if netReadLong p.buf bpId ∉ ids then -6
  else 0

/-- `BootpCopyNetParams`. -/
def bootpCopyNetParams : NetVars :=
  { net with
    netServerIP := if load p.buf bpSiaddr 4 ≠ [0, 0, 0, 0] then load p.buf bpSiaddr 4 else net.netServerIP
    netServerEther := p.ether
    bootFile := if p.buf bpFile ≠ 0 then copyFilename (load p.buf bpFile 128) 128 else net.bootFile
    netOurIP := load p.buf bpYiaddr 4 }

/-- `truncate_sz`. -/
def truncateSz (maxlen curlen : ℕ) : ℕ := if maxlen ≤ curlen then maxlen - 1 else curlen

/-- One option of `DhcpOptionsProcess`: the variables, and the packet, where a boot file may be
put. -/
def dhcpOption (popt : ℕ) (s : NetVars × (ℕ → UInt8)) : NetVars × (ℕ → UInt8) :=
  let (net, buf) := s
  let oplen := (buf (popt + 1)).toNat
  match (buf popt).toNat with
  | 1 => ({ net with netOurSubnetMask := load buf (popt + 2) 4 }, buf)
  | 3 => ({ net with netOurGatewayIP := load buf (popt + 2) 4 }, buf)
  | 6 => ({ net with netOurDNSIP := load buf (popt + 2) 4 }, buf)
  | 12 => ({ net with netOurHostName := load buf (popt + 2) (truncateSz 32 oplen) }, buf)
  | 17 => ({ net with netOurRootPath := load buf (popt + 2) (truncateSz 64 oplen) }, buf)
  | 51 => ({ net with dhcpLeasetime := netReadLong buf (popt + 2) }, buf)
  | 54 => ({ net with netDHCPServerIP := load buf (popt + 2) 4 }, buf)
  | 67 =>
    if buf bpFile = 0 ∧ 0 < truncateSz 128 oplen then
      (net, store buf bpFile (load buf (popt + 2) (truncateSz 128 oplen) ++ [0]))
    else (net, buf)
  | _ => (net, buf)

/-- The loop of `DhcpOptionsProcess`. An option has two bytes at least. -/
def dhcpOptionsLoop (stop : ℕ) : ℕ → ℕ → NetVars × (ℕ → UInt8) → NetVars × (ℕ → UInt8)
  | 0, _, s => s
  | fuel + 1, popt, s =>
    if popt < stop ∧ s.2 popt ≠ 255 then
      dhcpOptionsLoop stop fuel (popt + (s.2 (popt + 1)).toNat + 2) (dhcpOption popt s)
    else s

/-- `DhcpOptionsProcess`. -/
def dhcpOptionsProcess (popt : ℕ) (net : NetVars) (buf : ℕ → UInt8) : NetVars × (ℕ → UInt8) :=
  dhcpOptionsLoop (popt + bootpHdrSize) bootpHdrSize popt (net, buf)

/-- The loop of `DhcpMessageType`, which has no end but that of the memory. -/
def messageTypeLoop : ℕ → ℕ → Option ℤ
  | 0, _ => none
  | fuel + 1, popt =>
    if p.room ≤ popt then none
    else if p.buf popt = 255 then some (-1)
    else if p.buf popt = 53 then some (p.buf (popt + 2)).toNat
    else messageTypeLoop fuel (popt + (p.buf (popt + 1)).toNat + 2)

/-- The vendor field begins with the magic cookie, as `NetReadLong` reads it. -/
def HasCookie : Prop := netReadLong p.buf bpVend = htonl bootpVendorMagic

instance (p : Received) : Decidable (HasCookie p) := inferInstanceAs (Decidable (_ = _))

/-- `DhcpMessageType`. -/
def dhcpMessageType : Option ℤ :=
  if HasCookie p then messageTypeLoop p p.room (bpVend + 4) else some (-1)

/-- The options are processed if there is a cookie. -/
def processOptions : NetVars × (ℕ → UInt8) :=
  if HasCookie p then dhcpOptionsProcess (bpVend + 4) net p.buf else (net, p.buf)

/-- What `DhcpSendRequestPkt` puts into its packet. -/
structure DhcpRequestPkt where
  id : ℕ
  serverId : List UInt8
  offeredIp : List UInt8
deriving DecidableEq

/-- `DhcpHandler`, and the packet that it sends. There is no result if the search for a message type
runs out of the memory. -/
def dhcpHandler (s : Dhcp) (p : Received) : Option (Dhcp × Option DhcpRequestPkt) :=
  if bootpCheckPkt s.ids p ≠ 0 then some (s, none)
  else
    match s.state with
    | .selecting =>
      let (net, buf) := processOptions s.net p
      some ({ s with state := .requesting, net },
        some ⟨netReadLong buf bpId, net.netDHCPServerIP, load buf bpYiaddr 4⟩)
    | .requesting =>
      match dhcpMessageType p with
      | none => none
      | some type =>
        if type = 5 then
          let (net, buf) := processOptions s.net p
          some ({ s with state := .bound, net := bootpCopyNetParams net { p with buf } }, none)
        else some (s, none)
    | _ => some (s, none)

end

end UBoot.Net
