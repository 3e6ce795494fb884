import Mathlib.Order.Basic
import UBoot.Net.Tftp

/-!
# Steps of the TFTP client

What the handlers do with the packets that a server sends, each as one equation: an acknowledgement
of the options, a block of data in the middle of a download, and the first block of it.
-/

namespace UBoot.Net

open UBoot.Common List

variable {c : Tftp} {n b src : ℕ} {p data : List UInt8}

variable (n)

/-! ### Packets -/

@[simp] theorem length_htons : (htons n).length = 2 := rfl

theorem not_length_htons_lt (p : List UInt8) : ¬ (htons n ++ p).length < 2 := by
  rw [length_append, length_htons]
  omega

theorem ntohs_htons (p : List UInt8) : ntohs (htons n ++ p) = n % 2 ^ 16 := by
  have h₁ : (UInt8.ofNat (n / 256 % 256)).toNat = n / 256 % 256 :=
    UInt8.toNat_ofNat_of_lt (Nat.mod_lt _ (by decide))
  have h₂ : (UInt8.ofNat (n % 256)).toNat = n % 256 := UInt8.toNat_ofNat_of_lt (Nat.mod_lt _ (by decide))
  show (UInt8.ofNat (n / 256 % 256)).toNat * 256 + (UInt8.ofNat (n % 256)).toNat = n % 2 ^ 16
  omega

theorem drop_htons (p : List UInt8) : (htons n ++ p).drop 2 = p := rfl

theorem ntohs_request (c : Tftp) (n : ℕ) : ntohs (request c n) = n % 2 ^ 16 := by
  simp only [request, append_assoc, ntohs_htons]

/-- The handler looks at a packet that comes from the right port, and at every answer to a
request. -/
def Listens (c : Tftp) (src : ℕ) : Prop :=
  (c.tftpState = .sendRrq ∨ c.tftpState = .sendWrq) ∨ c.tftpRemotePort = src

variable (hsrc : Listens c src)
include hsrc

theorem tftpHandler_opcode (n : ℕ) (p : List UInt8) :
    tftpHandler c c.tftpOurPort src (htons n ++ p) = if n % 2 ^ 16 = 4 then ackPacket c p
      else if n % 2 ^ 16 = 6 then oackPacket c src p
      else if n % 2 ^ 16 = 3 then
        if p.length < 2 then (c, []) else dataPacket c src (ntohs p) (p.drop 2)
      else if n % 2 ^ 16 = 5 then (errorPacket c (ntohs p), [])
      else (c, []) := by
  have hport : ¬ (c.tftpState ≠ .sendRrq ∧ src ≠ c.tftpRemotePort ∧ c.tftpState ≠ .recvWrq ∧
      c.tftpState ≠ .sendWrq) := by
    rintro ⟨h₁, h₂, -, h₃⟩
    rcases hsrc with (h | h) | h
    · exact h₁ h
    · exact h₃ h
    · exact h₂ h.symm
  rw [tftpHandler, if_neg (not_not.mpr rfl), if_neg hport, if_neg (not_length_htons_lt n p)]
  rw [ntohs_htons, drop_htons]

theorem tftpHandler_data :
    tftpHandler c c.tftpOurPort src (htons 3 ++ (htons b ++ data)) = dataPacket c src
    (b % 2 ^ 16) data := by
  rw [tftpHandler_opcode hsrc, ntohs_htons, drop_htons, if_neg (by decide), if_neg (by decide),
    if_pos (by decide), if_neg (not_length_htons_lt b data)]

theorem tftpHandler_oack : tftpHandler c c.tftpOurPort src (htons 6 ++ p) = oackPacket c src p := by
  rw [tftpHandler_opcode hsrc]
  rfl

theorem tftpHandler_ack : tftpHandler c c.tftpOurPort src (htons 4 ++ p) = ackPacket c p := by
  rw [tftpHandler_opcode hsrc]
  rfl

omit hsrc

/-- Looking through a list for settings of one variable ends with the last setting, or with the old
value if there is none. -/
theorem foldl_setting {α β : Type*} (found : α → Prop) [DecidablePred found]
    (f : α → β) (l : List α) : (∀ v, l.foldl (fun v i => if found i then f i else v) v = v) ∨
      ∃ w, ∀ v, l.foldl (fun v i => if found i then f i else v) v = w := by
  induction l with
  | nil => exact .inl fun _ => rfl
  | cons i l ih =>
    rcases ih with hnone | ⟨w, hw⟩
    · by_cases hi : found i
      · exact .inr ⟨f i, fun v => by rw [foldl_cons, if_pos hi, hnone]⟩
      · exact .inl fun v => by rw [foldl_cons, if_neg hi, hnone]
    · exact .inr ⟨w, fun v => by rw [foldl_cons, hw]⟩

/-- Reading the options again does not change the block size again. -/
theorem oackBlkSize_idem (p : List UInt8) : oackBlkSize (oackBlkSize n p) p = oackBlkSize n p := by
  rcases foldl_setting (fun i => (p.drop i).take 8 = cstr "blksize")
    (fun i => simpleStrtoul (p.drop (i + 8)) % 2 ^ 16) (range (p.length - 8)) with h | ⟨w, h⟩
  · exact h _
  · exact (h _).trans (h _).symm

/-- The other end, with the block size that its answer to a request makes the client use. -/
structure TftpPeer where
  port : ℕ
  blkSize : ℕ
  oack : Option (List UInt8)
  blkSize_pos : 0 < blkSize
  blkSize_lt : blkSize < 2 ^ 16
  agreed : (oack.elim tftpBlockSize fun p => oackBlkSize tftpBlockSize p) = blkSize

theorem tftpBlockSize_pos : 0 < tftpBlockSize := by decide

theorem tftpBlockSize_lt : tftpBlockSize < 2 ^ 16 := by decide

/-! ### Downloading -/

/-- The acknowledgement that a downloading client sends. -/
def ackOf (c : Tftp) : Udp := ⟨c.tftpOurPort, c.tftpRemotePort, htons 4 ++
    htons (c.tftpBlock % 2 ^ 16)⟩

theorem tftpSend_reading (hw : c.tftpWriting = false)
    (hs : c.tftpState = .oack ∨ c.tftpState = .data) : tftpSend c = (c, [ackOf c]) := by
  rcases hs with hs | hs <;> simp [tftpSend, tftpSendData, hs, hw, ackOf]

theorem tftpSend_request (hs : c.tftpState = .sendRrq) :
    tftpSend c = (c, [⟨c.tftpOurPort, c.tftpRemotePort, request c 1⟩]) := by
  simp [tftpSend, tftpSendData, hs]

/-- A client that has just asked for a file. -/
def asked (c : Tftp) : Tftp :=
  { c with
    netBootFileXferSize := 0
    netState := .running
    tftpWriting := false
    tftpState := .sendRrq
    tftpRemotePort := wellKnownPort
    tftpTimeoutCount := 0
    tftpTimeoutCountMax := c.tftpRrqTimeoutCountMax
    tftpBlock := 0
    tftpBlkSize := tftpBlockSize }

/-- The client after one more timeout. -/
def ticked (c : Tftp) : Tftp := { c with tftpTimeoutCount := c.tftpTimeoutCount + 1 }

/-- A timeout gives up or sends the last packet again. -/
theorem tftpTimeout_cases (hs : c.tftpState ≠ .recvWrq) :
    tftpTimeout c = (netStartAgain (ticked c), []) ∨ tftpTimeout c = tftpSend (ticked c) := by
  by_cases hcount : c.tftpTimeoutCountMax < c.tftpTimeoutCount + 1
  · exact .inl (if_pos hcount)
  · exact .inr ((if_neg hcount).trans (if_pos hs))

theorem oackPacket_reading (hw : c.tftpWriting = false) :
    oackPacket c src p =
      ({ c with tftpState := .oack, tftpRemotePort := src, tftpBlkSize := oackBlkSize c.tftpBlkSize p },
        [⟨c.tftpOurPort, src, htons 4 ++ htons (c.tftpBlock % 2 ^ 16)⟩]) := by
  rw [oackPacket]
  rw [if_neg (by simp [hw])]
  exact tftpSend_reading hw (.inl rfl)

/-- The offset of the current run of 65536 blocks when block number `b` arrives. -/
def wrapOffsetAt (c : Tftp) (b : ℕ) : ℕ :=
  if b = 0 ∧ c.tftpLastBlock ≠ 0 then
    (c.tftpBlockWrapOffset + c.tftpBlkSize * tftpSequenceSize) % 2 ^ 64
  else c.tftpBlockWrapOffset

/-- Where block number `b` is stored. -/
def offsetAt (c : Tftp) (b : ℕ) : ℕ :=
  (intMul ((b : ℤ) - 1) c.tftpBlkSize + wrapOffsetAt c b) % 2 ^ 64

/-- `NetBootFileXferSize` after a block of `len` bytes with number `b`. -/
def xferSizeAt (c : Tftp) (b len : ℕ) : ℕ := max c.netBootFileXferSize
    ((offsetAt c b + len) % 2 ^ 64)

/-- The client after it has taken block number `b`. -/
def afterBlock (c : Tftp) (b : ℕ) (data : List UInt8) : Tftp :=
  { c with
    tftpBlock := b
    tftpLastBlock := b
    tftpBlockWrap := if b = 0 ∧ c.tftpLastBlock ≠ 0 then (c.tftpBlockWrap + 1) % 2 ^ 64
      else c.tftpBlockWrap
    tftpBlockWrapOffset := wrapOffsetAt c b
    tftpTimeoutCount := if b = 0 ∧ c.tftpLastBlock ≠ 0 then 0 else c.tftpTimeoutCount
    tftpTimeoutCountMax := timeoutCount
    mem := store c.mem ((c.loadAddr + offsetAt c b) % 2 ^ 64) data
    netBootFileXferSize := xferSizeAt c b data.length
    netState := if data.length < c.tftpBlkSize then .success else c.netState }

theorem updateBlockNumber_eq (c : Tftp) (b : ℕ) :
    updateBlockNumber { c with tftpBlock := b } =
      { c with
        tftpBlock := b
        tftpBlockWrap := if b = 0 ∧ c.tftpLastBlock ≠ 0 then (c.tftpBlockWrap + 1) % 2 ^ 64
          else c.tftpBlockWrap
        tftpBlockWrapOffset := wrapOffsetAt c b
        tftpTimeoutCount := if b = 0 ∧ c.tftpLastBlock ≠ 0 then 0 else c.tftpTimeoutCount } := by
  rw [updateBlockNumber, wrapOffsetAt]
  split <;> rfl

theorem dataPacket_of_data (hs : c.tftpState = .data) :
    dataPacket c src b data = receiveBlock (updateBlockNumber { c with tftpBlock := b }) data := by
  rw [dataPacket, updateBlockNumber_eq]
  rw [if_neg (by simp [hs])]

/-- A block that differs from the last one is stored and acknowledged. -/
theorem receiveBlock_new (hs : c.tftpState = .data) (hw : c.tftpWriting = false)
    (hb : b ≠ c.tftpLastBlock) : receiveBlock (updateBlockNumber { c with tftpBlock := b }) data =
      (afterBlock c b data, [ackOf (afterBlock c b data)]) := by
  rw [updateBlockNumber_eq, receiveBlock]
  dsimp only
  rw [if_neg hb, tftpSend_reading]
  rotate_left
  · exact hw
  · exact .inr hs
  rw [storeBlock]
  rw [← max_def_lt, afterBlock]
  by_cases hlen : data.length < c.tftpBlkSize
  · rw [if_pos hlen, if_pos hlen]
    rfl
  · rw [if_neg hlen, if_neg hlen]
    rfl

/-- The state in which the first block finds a download. -/
def underWay (c : Tftp) (src : ℕ) :
    Tftp := newTransfer { c with tftpState := .data, tftpRemotePort := src }

variable (hs : c.tftpState = .sendRrq ∨ c.tftpState = .oack)
include hs

theorem dataPacket_first (hw : c.tftpWriting = false) :
    dataPacket c src 1 data = (afterBlock (underWay c src) 1 data,
    [ackOf (afterBlock (underWay c src) 1 data)]) := by
  have hnew : receiveBlock _ data = _ := receiveBlock_new (c := underWay c src) rfl hw Nat.one_ne_zero
  rw [← hnew, dataPacket, updateBlockNumber_eq, updateBlockNumber_eq]
  rw [if_pos (by tauto)]
  simp [newTransfer, underWay, wrapOffsetAt]

/-- A download does not begin with another block. -/
theorem dataPacket_not_first (hb : b ≠ 1) : (dataPacket c src b data).1.netState = .restart := by
  rw [dataPacket, updateBlockNumber_eq]
  rw [if_pos (by tauto)]
  simp [newTransfer, netStartAgain, hb]

omit hs

/-! ### Uploading -/

/-- The block that an uploading client sends. -/
def dataOf (c : Tftp) : Udp :=
  ⟨c.tftpOurPort, c.tftpRemotePort,
    htons 3 ++ (htons (c.tftpBlock % 2 ^ 16) ++ loadBlock c (c.tftpBlock % 2 ^ 32) c.tftpBlkSize)⟩

/-- The client after it has sent a block. -/
def sending (c : Tftp) : Tftp :=
  { c with tftpFinalBlock := (loadBlock c (c.tftpBlock % 2 ^ 32) c.tftpBlkSize).length < c.tftpBlkSize }

theorem tftpSend_writing (hw : c.tftpWriting = true) (hs : c.tftpState = .data) :
    tftpSend c = (sending c, [dataOf c]) := by
  simp [tftpSend, tftpSendData, hs, hw, sending, dataOf]

theorem tftpSend_writeRequest (hs : c.tftpState = .sendWrq) :
    tftpSend c = (c, [⟨c.tftpOurPort, c.tftpRemotePort, request c 2⟩]) := by
  simp [tftpSend, tftpSendData, hs]

/-- A client that has just asked to write a file. -/
def offered (c : Tftp) (size : ℕ) : Tftp :=
  { newTransfer c with
    netBootFileXferSize := size
    netState := .running
    tftpWriting := true
    tftpState := .sendWrq
    tftpRemotePort := wellKnownPort
    tftpTimeoutCount := 0
    tftpTimeoutCountMax := c.tftpRrqTimeoutCountMax
    tftpBlock := 0
    tftpBlkSize := tftpBlockSize }

theorem tftpStart_put (c : Tftp) (size : ℕ) :
    tftpStart c (some size) = (offered c size,
    [⟨c.tftpOurPort, wellKnownPort, request (offered c size) 2⟩]) :=
  tftpSend_writeRequest rfl

/-- The client with the options of the other end, ready for the next block. -/
def opened (c : Tftp) (src : ℕ) (p : List UInt8) : Tftp :=
  { c with
    tftpState := .data
    tftpRemotePort := src
    tftpBlkSize := oackBlkSize c.tftpBlkSize p
    tftpBlock := (c.tftpBlock + 1) % 2 ^ 64 }

theorem oackPacket_writing (hw : c.tftpWriting = true) :
    oackPacket c src p = (sending (opened c src p), [dataOf (opened c src p)]) := by
  rw [oackPacket]
  rw [if_pos hw]
  exact tftpSend_writing hw rfl

/-- The client that turns to block number `b`. -/
def turned (c : Tftp) (b : ℕ) : Tftp := updateBlockNumber { c with tftpBlock := b }

theorem ackPacket_final (hw : c.tftpWriting = true) (hf : c.tftpFinalBlock = true) :
    ackPacket c p = (tftpComplete c, []) := by
  rw [ackPacket, if_pos hw, if_pos hf]

theorem ackPacket_not_final (hw : c.tftpWriting = true) (hf : c.tftpFinalBlock = false) :
    ackPacket c p = if c.tftpBlock = ntohs p then tftpSend (turned c ((ntohs p + 1) % 2 ^ 16))
      else (turned c ((ntohs p + 1) % 2 ^ 16), []) := by
  rw [ackPacket, if_pos hw, if_neg (by simp [hf])]
  rfl

/-- An idle client that loads to address 0 and saves from there. -/
def idleClient (mem : ℕ → UInt8) : Tftp where
  tftpFilename := []
  tftpTimeoutMSecs := 5000
  tftpRrqTimeoutCountMax := timeoutCount
  tftpBlkSizeOption := 1468
  tftpRemotePort := 0
  tftpOurPort := 1024
  tftpTimeoutCount := 0
  tftpTimeoutCountMax := 0
  tftpBlock := 0
  tftpLastBlock := 0
  tftpBlockWrap := 0
  tftpBlockWrapOffset := 0
  tftpState := .sendRrq
  tftpBlkSize := 0
  tftpWriting := false
  tftpFinalBlock := false
  loadAddr := 0
  saveAddr := 0
  netBootFileXferSize := 0
  mem := mem
  netState := .running

end UBoot.Net
