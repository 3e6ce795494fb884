import Mathlib.Data.List.Infix
import Mathlib.Logic.Relation
import UBoot.Common.Blocks
import UBoot.Net.TftpClient

/-!
# A TFTP upload

The client together with a server that accepts blocks in sequence. Packets of the client arrive in
the order in which they were sent; the acknowledgement of a block that was accepted, and the answer
to the request, may arrive at any time after it and any number of times.

The client takes every acknowledgement that arrives after its last block for the acknowledgement of
that block, it does not count the wraps of the block number, and it knows no other answer to its
request than an acknowledgement of the options. So an upload is safe only if it has a single block.
-/

namespace UBoot.Net

open UBoot.Common Relation List

/-- The client, the packets on the way to the server, the blocks that the server has accepted, and
the blocks whose acknowledgement the client has received. -/
structure Upload where
  client : Tftp
  inbox : List Udp
  accepted : List (List UInt8)
  heard : List ℕ

/-- A step of the client, and what it sends. -/
def Upload.react (s : Upload) (r : Tftp × List Udp) : Upload :=
  { s with client := r.1, inbox := s.inbox ++ r.2 }

namespace TftpPeer

variable (srv : TftpPeer)

/-- A packet arrives at the server: the next block is accepted if no short block has come before. -/
def accept (accepted : List (List UInt8)) (p : Udp) : List (List UInt8) :=
  if p.dport = srv.port ∧ ntohs p.data = 3 ∧ ntohs (p.data.drop 2) = (accepted.length + 1) % 2 ^
      16 ∧ ∀ d ∈ accepted, d.length = srv.blkSize then
    accepted ++ [p.data.drop 4]
  else accepted

/-- The answer to a request: the options or, from a server that knows none, the acknowledgement of
block 0. -/
def greeting : List UInt8 :=
  match srv.oack with
  | some p => htons 6 ++ p
  | none => htons 4 ++ htons 0

end TftpPeer

/-- What can happen: a packet arrives at the server, the answer to the request or the
acknowledgement of an accepted block arrives at the client, or the client runs into a timeout. -/
inductive UploadStep (srv : TftpPeer) : Upload → Upload → Prop
  | arrive (s : Upload) (p : Udp) (rest : List Udp) (hbox : s.inbox = p :: rest) :
      UploadStep srv s { s with inbox := rest, accepted := srv.accept s.accepted p }
  | greet (s : Upload) (hrun : s.client.netState = .running) :
      UploadStep srv s (s.react (tftpHandler s.client s.client.tftpOurPort srv.port srv.greeting))
  | acknowledge (s : Upload) (k : ℕ) (hk : 1 ≤ k) (hle : k ≤ s.accepted.length)
      (hrun : s.client.netState = .running) :
        UploadStep srv s
          { s.react (tftpHandler s.client s.client.tftpOurPort srv.port
              (htons 4 ++ htons (k % 2 ^ 16))) with heard := k :: s.heard }
  | timeout (s : Upload) (hrun : s.client.netState = .running) :
      UploadStep srv s (s.react (tftpTimeout s.client))

/-- The upload of `size` bytes after the request has reached the server. -/
def uploadStart (c₀ : Tftp) (size : ℕ) : Upload := ⟨(tftpStart c₀ (some size)).1, [], [], []⟩

/-- What can be reached in an upload. -/
def UploadReach (srv : TftpPeer) (size : ℕ) (c₀ : Tftp) (s : Upload) : Prop :=
  ReflTransGen (UploadStep srv) (uploadStart c₀ size) s

/-- The blocks of `file` are accepted in order, completion is reported only after the
acknowledgement of the last one, and the upload can be completed. -/
structure Transmits (srv : TftpPeer) (size : ℕ) (c₀ : Tftp) (file : List UInt8) : Prop where
  sequence : ∀ s, UploadReach srv size c₀ s → s.accepted <+: firstBlocks file srv.blkSize
    (blockCount file srv.blkSize)
  completion : ∀ s, UploadReach srv size c₀ s → s.client.netState = .success →
    s.accepted = firstBlocks file srv.blkSize (blockCount file srv.blkSize) ∧
    blockCount file srv.blkSize ∈ s.heard
  completes : ∃ s, UploadReach srv size c₀ s ∧ s.client.netState = .success

/-- Whatever the memory area holds, its upload transmits it. -/
def Uploads (srv : TftpPeer) (size : ℕ) : Prop :=
  ∀ c₀ : Tftp, c₀.saveAddr + size ≤ 2 ^ 64 → Transmits srv size c₀ (load c₀.mem c₀.saveAddr size)

/-! ### Blocks that are sent -/

section Blocks

variable {c : Tftp} {k n : ℕ}

/-- In the first run through the block numbers the client sends the right blocks. -/
theorem loadBlock_eq (hwrap : c.tftpBlockWrapOffset = 0) (hk : 1 ≤ k) (hk' : k < 2 ^ 16)
    (hn : n < 2 ^ 16)
    (hle : (k - 1) * n ≤ c.netBootFileXferSize) (hsize : c.netBootFileXferSize < 2 ^ 64)
    (hmem : c.saveAddr + c.netBootFileXferSize ≤ 2 ^ 64) :
    loadBlock c k n = blockAt (load c.mem c.saveAddr c.netBootFileXferSize) n k := by
  have hmul : (k - 1) * n < 2 ^ 32 :=
    lt_of_le_of_lt (Nat.mul_le_mul (show k - 1 ≤ 2 ^ 16 - 1 by omega) hn.le) (by decide)
  have hoff : (k + 2 ^ 32 - 1) % 2 ^ 32 * n % 2 ^ 32 = (k - 1) * n := by
    rw [show (k + 2 ^ 32 - 1) % 2 ^ 32 = k - 1 by omega, Nat.mod_eq_of_lt hmul]
  rw [loadBlock, hoff, hwrap, blockAt_load, add_zero, Nat.mod_eq_of_lt
    (show (k - 1) * n < 2 ^ 64 by omega),
    show (c.netBootFileXferSize + 2 ^ 64 - (k - 1) * n) % 2 ^ 64 = c.netBootFileXferSize - (k - 1) * n by
      omega, Nat.min_comm]
  -- at the top of memory the last block may be empty
  rcases Nat.eq_zero_or_pos (min n (c.netBootFileXferSize - (k - 1) * n)) with hz | hpos
  · rw [hz]
    rfl
  · rw [Nat.mod_eq_of_lt (by omega)]

/-- Block number 0 is loaded from the wrong place. -/
theorem loadBlock_zero (hwrap : c.tftpBlockWrapOffset = 0) (hn : 0 < n) (hn' : n < 2 ^ 16)
    (haddr : c.saveAddr = 0) : loadBlock c 0 n = load c.mem (2 ^ 32 - n)
    (min ((c.netBootFileXferSize + 2 ^ 64 - (2 ^ 32 - n)) % 2 ^ 64) n) := by
  have hoff : (0 + 2 ^ 32 - 1) % 2 ^ 32 * n % 2 ^ 32 = 2 ^ 32 - n := by omega
  rw [loadBlock, hoff, hwrap, haddr, add_zero, zero_add, Nat.mod_eq_of_lt
    (show 2 ^ 32 - n < 2 ^ 64 by omega),
    Nat.mod_eq_of_lt (show 2 ^ 32 - n < 2 ^ 64 by omega)]

end Blocks

variable {heard : List ℕ} {k : ℕ}

/-! ### A single block -/

section Single

variable {srv : TftpPeer} {c c' c₀ : Tftp} {s : Upload} {size b : ℕ} {p : List UInt8}

/-- The fields that no step changes once the upload is under way. -/
structure Keeps (c c' : Tftp) : Prop where
  mem : c'.mem = c.mem
  saveAddr : c'.saveAddr = c.saveAddr
  xferSize : c'.netBootFileXferSize = c.netBootFileXferSize
  writing : c'.tftpWriting = c.tftpWriting
  state : c'.tftpState = c.tftpState
  port : c'.tftpRemotePort = c.tftpRemotePort
  blkSize : c'.tftpBlkSize = c.tftpBlkSize

theorem keeps_turned (c : Tftp) (b : ℕ) : Keeps c (turned c b) := by
  rw [turned, updateBlockNumber_eq]
  exact ⟨rfl, rfl, rfl, rfl, rfl, rfl, rfl⟩

theorem Keeps.setFinal (h : Keeps c c') (final : Bool) :
    Keeps c { c' with tftpFinalBlock := final } :=
  ⟨h.mem, h.saveAddr, h.xferSize, h.writing, h.state, h.port, h.blkSize⟩

theorem Keeps.sending (h : Keeps c c') : Keeps c (sending c') := h.setFinal _

theorem sending_ne_success (hrun : c.netState = .running) : (sending c).netState ≠ .success := by
  have hgen : ∀ final, ({ c with tftpFinalBlock := final } : Tftp).netState = .running := fun _ => hrun
  exact fun hdone => absurd ((hgen _).symm.trans hdone) (by decide)

/-- An acknowledgement. -/
theorem ackPacket_keeps (hw : c.tftpWriting = true) (hs : c.tftpState = .data) :
    Keeps c (ackPacket c p).1 := by
  have hturned := keeps_turned c ((ntohs p + 1) % 2 ^ 16)
  cases hf : c.tftpFinalBlock with
  | true =>
    rw [ackPacket_final hw hf]
    exact ⟨rfl, rfl, rfl, rfl, rfl, rfl, rfl⟩
  | false =>
    rw [ackPacket_not_final hw hf, tftpSend_writing (hturned.writing.trans hw) (hturned.state.trans hs)]
    split
    · exact hturned.sending
    · exact hturned

/-- A timeout. -/
theorem tftpTimeout_keeps (hw : c.tftpWriting = true) (hs : c.tftpState = .data)
    (hrun : c.netState = .running) : Keeps c (tftpTimeout c).1 ∧
    (tftpTimeout c).1.netState ≠ .success := by
  rcases tftpTimeout_cases (show c.tftpState ≠ .recvWrq by rw [hs]; decide) with htick | htick
  · rw [htick]
    exact ⟨⟨rfl, rfl, rfl, rfl, rfl, rfl, rfl⟩, fun h => (by cases h)⟩
  · rw [htick, tftpSend_writing (c := ticked c) hw hs]
    exact ⟨(show Keeps c (ticked c) from ⟨rfl, rfl, rfl, rfl, rfl, rfl, rfl⟩).sending,
      sending_ne_success hrun⟩

/-- No block is on its way to the server. -/
def NoData (inbox : List Udp) : Prop := ∀ p ∈ inbox, ntohs p.data ≠ 3

variable {inbox : List Udp} {file : List UInt8}

theorem NoData.append_request (h : NoData inbox) (sport dport : ℕ) (c : Tftp) :
    NoData (inbox ++ [⟨sport, dport, request c 2⟩]) := by
  refine forall_mem_append.mpr ⟨h, forall_mem_singleton.mpr ?_⟩
  rw [ntohs_request]
  decide

theorem TftpPeer.accept_of_ne_data (srv : TftpPeer) {p : Udp} (accepted : List (List UInt8))
    (hp : ntohs p.data ≠ 3) : srv.accept accepted p = accepted :=
  if_neg fun h => hp h.2.1

/-- The first block on its way to the server is the file. -/
def FirstIs (srv : TftpPeer) (file : List UInt8) (inbox : List Udp) : Prop :=
  ∃ pre p post, inbox = pre ++ p :: post ∧ NoData pre ∧ srv.accept [] p = [file]

theorem FirstIs.append (h : FirstIs srv file inbox) (l : List Udp) :
    FirstIs srv file (inbox ++ l) := by
  obtain ⟨pre, p, post, rfl, hpre, hp⟩ := h
  exact ⟨pre, p, post ++ l, by simp, hpre, hp⟩

/-- The upload before and after the answer to the request, as long as it has a single block. -/
inductive UploadPhase (srv : TftpPeer) (file : List UInt8) (s : Upload) : Prop
  | asking (hs : s.client.tftpState = .sendWrq) (hblock : s.client.tftpBlock = 0)
      (hsize : s.client.tftpBlkSize = tftpBlockSize) (hwrap : s.client.tftpBlockWrapOffset = 0)
      (haccepted : s.accepted = []) (hbox : NoData s.inbox)
  | sending (hs : s.client.tftpState = .data) (hport : s.client.tftpRemotePort = srv.port)
      (hsize : s.client.tftpBlkSize = srv.blkSize)
      (hfirst : s.accepted = [] ∧ FirstIs srv file s.inbox ∨ s.accepted = [file])

/-- The invariant of the upload of a single block. -/
structure UploadInv (srv : TftpPeer) (size : ℕ) (c₀ : Tftp) (s : Upload) : Prop where
  mem : s.client.mem = c₀.mem
  saveAddr : s.client.saveAddr = c₀.saveAddr
  xferSize : s.client.netBootFileXferSize = size
  writing : s.client.tftpWriting = true
  phase : UploadPhase srv (load c₀.mem c₀.saveAddr size) s
  success : s.client.netState = .success → s.accepted = [load c₀.mem c₀.saveAddr size] ∧ 1 ∈ s.heard

theorem UploadInv.listens (h : UploadInv srv size c₀ s) : Listens s.client srv.port := by
  cases h.phase with
  | asking hs => exact .inl (.inr hs)
  | sending hs hport => exact .inr hport

/-- The client goes on with an upload that is under way. -/
theorem UploadInv.react_keeps (h : UploadInv srv size c₀ s) (hs : s.client.tftpState = .data)
    {r : Tftp × List Udp} (hkeeps : Keeps s.client r.1)
    (hsuccess : r.1.netState = .success → s.accepted = [load c₀.mem c₀.saveAddr size] ∧ 1 ∈ heard) :
    UploadInv srv size c₀ { s.react r with heard := heard } := by
  refine ⟨hkeeps.mem.trans h.mem, hkeeps.saveAddr.trans h.saveAddr,
    hkeeps.xferSize.trans h.xferSize, hkeeps.writing.trans h.writing, ?_, hsuccess⟩
  cases h.phase with
  | asking hs' => exact absurd (hs.symm.trans hs') (by decide)
  | sending _ hport hsize hfirst =>
    refine .sending (hkeeps.state.trans hs) (hkeeps.port.trans hport) (hkeeps.blkSize.trans hsize) ?_
    exact hfirst.imp (fun hf => ⟨hf.1, hf.2.append _⟩) id

theorem oackBlkSize_eq (hoack : srv.oack = some p) : oackBlkSize tftpBlockSize p = srv.blkSize := by
  have hagreed := srv.agreed
  rwa [hoack] at hagreed

theorem TftpPeer.accept_dataOf (srv : TftpPeer) {accepted : List (List UInt8)}
    (hport : c.tftpRemotePort = srv.port) (hblock : c.tftpBlock % 2 ^ 16 = (accepted.length + 1) % 2 ^ 16)
    (hfull : ∀ d ∈ accepted, d.length = srv.blkSize) :
    srv.accept accepted (dataOf c) = accepted ++ [loadBlock c (c.tftpBlock % 2 ^ 32) c.tftpBlkSize] := by
  have hop : ntohs (dataOf c).data = 3 := by
    rw [dataOf, ntohs_htons]
    rfl
  have hnum : ntohs ((dataOf c).data.drop 2) = (accepted.length + 1) % 2 ^ 16 := by
    rw [dataOf, drop_htons, ntohs_htons, Nat.mod_mod, hblock]
  exact if_pos ⟨hport, hop, hnum, hfull⟩

section

variable (h : UploadInv srv size c₀ s) (hsize : size < srv.blkSize) (hmem : c₀.saveAddr + size ≤ 2 ^ 64)
  (hoack : srv.oack = some p) (hrun : s.client.netState = .running)

include h hsize hmem hoack hrun

/-- The first answer to the request makes the client send the file. -/
theorem UploadInv.open (hblock : s.client.tftpBlock = 0)
    (hdefault : s.client.tftpBlkSize = tftpBlockSize)
    (hwrap : s.client.tftpBlockWrapOffset = 0) (haccepted : s.accepted = []) (hbox : NoData s.inbox) :
    UploadInv srv size c₀ (s.react (sending (opened s.client srv.port p),
      [dataOf (opened s.client srv.port p)])) := by
  have hlt := srv.blkSize_lt
  set c := opened s.client srv.port p with hc
  have hagreed : c.tftpBlkSize = srv.blkSize := by
    rw [hc, opened, hdefault]
    exact oackBlkSize_eq hoack
  have hone : c.tftpBlock = 1 := by
    rw [hc, opened, hblock]
    rfl
  have hkeeps : Keeps c (sending c) := (show Keeps _ c from ⟨rfl, rfl, rfl, rfl, rfl, rfl, rfl⟩).sending
  refine ⟨hkeeps.mem.trans h.mem, hkeeps.saveAddr.trans h.saveAddr, hkeeps.xferSize.trans h.xferSize,
    hkeeps.writing.trans h.writing, .sending hkeeps.state hkeeps.port (hkeeps.blkSize.trans hagreed)
      (.inl ⟨haccepted, ?_⟩), (absurd · (sending_ne_success hrun))⟩
  refine ⟨s.inbox, dataOf c, [], rfl, hbox, ?_⟩
  have hload := loadBlock_eq (c := c) hwrap le_rfl (by decide) hlt
    (by rw [Nat.zero_mul]; exact Nat.zero_le _)
    (show s.client.netBootFileXferSize < 2 ^ 64 by rw [h.xferSize]; omega)
    (show s.client.saveAddr + s.client.netBootFileXferSize ≤ 2 ^
      64 by rw [h.saveAddr, h.xferSize]; exact hmem)
  have hfile : load c.mem c.saveAddr c.netBootFileXferSize = load c₀.mem c₀.saveAddr size := by
    rw [hc, opened, h.mem, h.saveAddr, h.xferSize]
  rw [srv.accept_dataOf rfl (by rw [hone]; rfl) (fun d hd => absurd hd not_mem_nil), nil_append,
    hone, hagreed, Nat.mod_eq_of_lt (by decide), hload, hfile, blockAt, Nat.zero_mul,
    drop_zero, take_of_length_le (by rw [length_load]; exact hsize.le)]

/-- The answer to the request arrives. -/
theorem UploadInv.greet :
    UploadInv srv size c₀ (s.react (tftpHandler s.client s.client.tftpOurPort srv.port srv.greeting)) := by
  have hagreed := oackBlkSize_eq hoack
  rw [TftpPeer.greeting, hoack, tftpHandler_oack h.listens, oackPacket_writing h.writing]
  cases h.phase with
  | asking hs hblock hdefault hwrap haccepted hbox =>
    exact h.open hsize hmem hoack hrun hblock hdefault hwrap haccepted hbox
  | sending hs hport hsize' hfirst =>
    have hkeeps : Keeps s.client (opened s.client srv.port p) := by
      refine ⟨rfl, rfl, rfl, rfl, hs.symm, hport.symm, ?_⟩
      rw [opened, hsize', ← hagreed, oackBlkSize_idem]
    exact h.react_keeps (r := (sending (opened s.client srv.port p), _)) hs hkeeps.sending
      (absurd · (sending_ne_success hrun))

end

variable (h : UploadInv srv size c₀ s)
include h

/-- The acknowledgement of a block arrives; there is only one. -/
theorem UploadInv.acknowledge (hk : 1 ≤ k) (hle : k ≤ s.accepted.length) :
    UploadInv srv size c₀ { s.react (tftpHandler s.client s.client.tftpOurPort srv.port
      (htons 4 ++ htons (k % 2 ^ 16))) with heard := k :: s.heard } := by
  rw [tftpHandler_ack h.listens]
  cases h.phase with
  | asking hs hblock hdefault hwrap haccepted =>
    rw [haccepted, length_nil] at hle
    omega
  | sending hs hport hsize hfirst =>
    rcases hfirst with ⟨hnil, -⟩ | hone
    · rw [hnil, length_nil] at hle
      omega
    · rw [hone, length_singleton] at hle
      obtain rfl : k = 1 := by omega
      exact h.react_keeps hs (ackPacket_keeps h.writing hs) fun _ => ⟨hone, mem_cons_self⟩

/-- The timer runs out. -/
theorem UploadInv.timeout (hrun : s.client.netState = .running) :
    UploadInv srv size c₀ (s.react (tftpTimeout s.client)) := by
  cases h.phase with
  | asking hs hblock hdefault hwrap haccepted hbox =>
    rcases tftpTimeout_cases (show s.client.tftpState ≠ .recvWrq by rw [hs]; decide) with htick | htick
    · rw [htick, Upload.react, append_nil]
      exact ⟨h.mem, h.saveAddr, h.xferSize, h.writing, .asking hs hblock hdefault
        hwrap haccepted hbox, fun hdone => (by cases hdone)⟩
    · rw [htick, tftpSend_writeRequest (c := ticked s.client) hs]
      exact ⟨h.mem, h.saveAddr, h.xferSize, h.writing,
        .asking hs hblock hdefault hwrap haccepted (hbox.append_request _ _ _),
        fun hdone => absurd (hrun.symm.trans hdone) (by decide)⟩
  | sending hs hport hsize hfirst =>
    obtain ⟨hkeeps, hnot⟩ := tftpTimeout_keeps h.writing hs hrun
    exact h.react_keeps hs hkeeps fun hdone => absurd hdone hnot

/-- A packet arrives at the server. -/
theorem UploadInv.arrive (hsize : size < srv.blkSize) {q : Udp} {rest : List Udp}
    (hbox : s.inbox = q :: rest) : UploadInv srv size c₀
    { s with inbox := rest, accepted := srv.accept s.accepted q } := by
  -- a short block is the last one
  have hclosed : srv.accept [load c₀.mem c₀.saveAddr size] q = [load c₀.mem c₀.saveAddr size] := by
    refine if_neg fun hopen => ?_
    have hfull := hopen.2.2.2 _ mem_cons_self
    rw [length_load] at hfull
    omega
  have hmore : ∀ file, s.accepted = [file] → file = load c₀.mem c₀.saveAddr size →
      srv.accept s.accepted q = [load c₀.mem c₀.saveAddr size] := by
    rintro _ hone rfl
    rw [hone, hclosed]
  refine ⟨h.mem, h.saveAddr, h.xferSize, h.writing, ?_, fun hdone =>
    ⟨hmore _ (h.success hdone).1 rfl, (h.success hdone).2⟩⟩
  cases h.phase with
  | asking hs hblock hdefault hwrap haccepted hnone =>
    rw [hbox] at hnone
    refine .asking hs hblock hdefault hwrap ?_ (forall_mem_cons.mp hnone).2
    rw [srv.accept_of_ne_data _ (hnone q mem_cons_self)]
    exact haccepted
  | sending hs hport hsize' hfirst =>
    refine .sending hs hport hsize' ?_
    rcases hfirst with ⟨hnil, pre, d, post, hsplit, hpre, hd⟩ | hone
    · rw [hbox] at hsplit
      rcases pre with _ | ⟨q', pre⟩
      · obtain ⟨rfl, rfl⟩ := cons.inj hsplit
        exact .inr (by rw [hnil, hd])
      obtain ⟨rfl, rfl⟩ := cons.inj hsplit
      refine .inl ⟨?_, pre, d, post, rfl, (forall_mem_cons.mp hpre).2, hd⟩
      rw [srv.accept_of_ne_data _ (hpre _ mem_cons_self)]
      exact hnil
    · exact .inr (hmore _ hone rfl)

omit h

theorem UploadReach.inv (h : UploadReach srv size c₀ s) (hsize : size < srv.blkSize)
    (hmem : c₀.saveAddr + size ≤ 2 ^ 64) (hoack : srv.oack = some p) : UploadInv srv size c₀ s := by
  induction h with
  | refl =>
    exact ⟨rfl, rfl, rfl, rfl, .asking rfl rfl rfl rfl rfl fun p hp => absurd hp not_mem_nil,
      fun hdone => (by cases hdone)⟩
  | tail _ hstep ih =>
    cases hstep with
    | arrive q rest hbox => exact ih.arrive hsize hbox
    | greet hrun => exact ih.greet hsize hmem hoack hrun
    | acknowledge k hk hle hrun => exact ih.acknowledge hk hle
    | timeout hrun => exact ih.timeout hrun

theorem firstBlocks_single (hlen : file.length < srv.blkSize) :
    firstBlocks file srv.blkSize (blockCount file srv.blkSize) = [file] := by
  rw [blockCount, Nat.div_eq_of_lt hlen, firstBlocks_succ, blockAt, Nat.zero_mul, drop_zero,
    take_of_length_le hlen.le]
  rfl

end Single

/-! ### Runs in order -/

section Runs

variable {srv : TftpPeer} {c c₀ : Tftp} {s : Upload} {size n : ℕ} {p file : List UInt8}

/-- A client in the middle of an upload, at block number `b`. -/
structure Sender (srv : TftpPeer) (size : ℕ) (c₀ c : Tftp) (b : ℕ) : Prop where
  run : c.netState = .running
  mem : c.mem = c₀.mem
  saveAddr : c.saveAddr = c₀.saveAddr
  xferSize : c.netBootFileXferSize = size
  writing : c.tftpWriting = true
  state : c.tftpState = .data
  port : c.tftpRemotePort = srv.port
  blkSize : c.tftpBlkSize = srv.blkSize
  block : c.tftpBlock = b
  last : c.tftpLastBlock = 0
  wrap : c.tftpBlockWrapOffset = 0

/-- The client at another block. -/
def atBlock (c : Tftp) (b : ℕ) : Tftp := { c with tftpBlock := b }

variable (h : Sender srv size c₀ c n)
include h

theorem Sender.atBlock (b : ℕ) : Sender srv size c₀ (atBlock c b) b :=
  { h with block := rfl }

theorem Sender.setFinal (final : Bool) : Sender srv size c₀ { c with tftpFinalBlock := final } n :=
  { h with }

theorem Sender.sending : Sender srv size c₀ (sending c) n := h.setFinal _

omit h

theorem turned_of_last (hlast : c.tftpLastBlock = 0) (b : ℕ) : turned c b = UBoot.Net.atBlock c b :=
  if_neg fun h => h.2 hlast

/-- An upload of `file` whose first `n` blocks have been sent and accepted, the last of them without
an acknowledgement yet. -/
structure SentUpTo (srv : TftpPeer) (size : ℕ) (c₀ : Tftp) (file : List UInt8)
    (s : Upload) (n : ℕ) : Prop
    where
  reach : UploadReach srv size c₀ s
  sender : Sender srv size c₀ s.client n
  final : s.client.tftpFinalBlock = decide (n = blockCount file srv.blkSize)
  accepted : s.accepted = firstBlocks file srv.blkSize n
  inbox : s.inbox = []
  heard : ∀ k ∈ s.heard, k < n

/-- A block of the file has arrived at the server. -/
theorem Sender.sentUpTo (h : Sender srv size c₀ c n) (hn : 1 ≤ n) (hn' : n < 2 ^ 16)
    (hle : n ≤ blockCount file srv.blkSize)
    (hload : loadBlock c n srv.blkSize = blockAt file srv.blkSize n)
    (hreach : UploadReach srv size c₀ ⟨UBoot.Net.sending c, [], firstBlocks file srv.blkSize n, heard⟩)
    (hheard : ∀ k ∈ heard, k < n) :
    SentUpTo srv size c₀ file ⟨UBoot.Net.sending c, [], firstBlocks file srv.blkSize n, heard⟩ n := by
  refine ⟨hreach, h.sending, ?_, rfl, rfl, hheard⟩
  show decide _ = _
  rw [h.block, Nat.mod_eq_of_lt (show n < 2 ^ 32 by omega), h.blkSize, hload]
  exact decide_eq_decide.mpr (length_blockAt_lt_iff srv.blkSize_pos hn hle)

/-- The acknowledgement of the last block makes the client send the next one. -/
theorem SentUpTo.handler_ack (h : SentUpTo srv size c₀ file s n) (hn : n < 2 ^ 16)
    (hlt : n < blockCount file srv.blkSize) :
    tftpHandler s.client s.client.tftpOurPort srv.port (htons 4 ++ htons (n % 2 ^ 16)) =
      (sending (atBlock s.client ((n + 1) % 2 ^ 16)), [dataOf (atBlock s.client ((n + 1) % 2 ^ 16))]) := by
  have hfinal : s.client.tftpFinalBlock = false := by
    rw [h.final, decide_eq_false hlt.ne]
  have hnum : ntohs (htons (n % 2 ^ 16)) = n := by
    rw [← append_nil (htons _), ntohs_htons, Nat.mod_mod, Nat.mod_eq_of_lt hn]
  rw [tftpHandler_ack (.inr h.sender.port), ackPacket_not_final h.sender.writing hfinal, hnum,
    if_pos h.sender.block, turned_of_last h.sender.last]
  exact tftpSend_writing h.sender.writing h.sender.state

/-- A block arrives at a server that waits for it. -/
theorem Sender.arrive (h : Sender srv size c₀ c ((n + 1) % 2 ^ 16))
    (hlt : n < blockCount file srv.blkSize)
    (hreach : UploadReach srv size c₀ ⟨UBoot.Net.sending c, [dataOf c], firstBlocks file
      srv.blkSize n, heard⟩) :
    UploadReach srv size c₀ ⟨UBoot.Net.sending c, [],
      firstBlocks file srv.blkSize n ++ [loadBlock c ((n + 1) % 2 ^ 16) srv.blkSize], heard⟩ := by
  have harrive : UploadStep srv ⟨UBoot.Net.sending c, [dataOf c], firstBlocks file srv.blkSize n,
    heard⟩ _ :=
    .arrive _ (dataOf c) [] rfl
  have haccept : srv.accept (firstBlocks file srv.blkSize n) (dataOf c) =
      firstBlocks file srv.blkSize n ++ [loadBlock c ((n + 1) % 2 ^ 16) srv.blkSize] := by
    rw [srv.accept_dataOf h.port (by rw [h.block, length_firstBlocks, Nat.mod_mod])
      (fun d hd => length_of_mem_firstBlocks srv.blkSize_pos hlt hd), h.block, h.blkSize,
      Nat.mod_eq_of_lt (show (n + 1) % 2 ^ 16 < 2 ^ 32 by omega)]
  rw [haccept] at harrive
  exact hreach.tail harrive

/-- The client sends the next block, and the server accepts it. -/
theorem SentUpTo.exchange (h : SentUpTo srv size c₀ file s n) (hn : 1 ≤ n) (hn' : n < 2 ^ 16)
    (hlt : n < blockCount file srv.blkSize) :
    UploadReach srv size c₀ ⟨sending (atBlock s.client ((n + 1) % 2 ^ 16)), [],
        firstBlocks file srv.blkSize n ++ [loadBlock (atBlock s.client ((n + 1) % 2 ^ 16))
        ((n + 1) % 2 ^ 16) srv.blkSize], n :: s.heard⟩ := by
  have hack : UploadStep srv s _ := .acknowledge s n hn (by rw [h.accepted, length_firstBlocks])
    h.sender.run
  rw [h.handler_ack hn' hlt, Upload.react, h.inbox, h.accepted] at hack
  exact (h.sender.atBlock _).arrive hlt (h.reach.tail hack)

section

variable (hsize : size < 2 ^ 64) (hmem : c₀.saveAddr + size ≤ 2 ^ 64)

include hsize hmem

/-- In the first run through the block numbers the client sends the blocks of the memory area. -/
theorem Sender.loadBlock_eq (h : Sender srv size c₀ c n) (hn : 1 ≤ n) (hn' : n < 2 ^ 16)
    (hle : n ≤ blockCount (load c₀.mem c₀.saveAddr size) srv.blkSize) :
    loadBlock c n srv.blkSize = blockAt (load c₀.mem c₀.saveAddr size) srv.blkSize n := by
  have hbound := sub_one_mul_le hle
  rw [length_load] at hbound
  rw [UBoot.Net.loadBlock_eq h.wrap hn hn' srv.blkSize_lt (by rw [h.xferSize]; exact hbound)
    (by rw [h.xferSize]; exact hsize) (by rw [h.saveAddr, h.xferSize]; exact hmem), h.mem, h.saveAddr,
    h.xferSize]

/-- The next block. -/
theorem SentUpTo.next (h : SentUpTo srv size c₀ (load c₀.mem c₀.saveAddr size) s n) (hn : 1 ≤ n)
    (hn' : n + 1 < 2 ^ 16) (hlt : n < blockCount (load c₀.mem c₀.saveAddr size) srv.blkSize) :
    ∃ s', SentUpTo srv size c₀ (load c₀.mem c₀.saveAddr size) s' (n + 1) := by
  have hsender := h.sender.atBlock (n + 1)
  have hload := hsender.loadBlock_eq hsize hmem (Nat.le_add_left _ _) hn' hlt
  have hreach := h.exchange hn (by omega) hlt
  rw [Nat.mod_eq_of_lt hn', hload, ← firstBlocks_succ] at hreach
  refine ⟨_, hsender.sentUpTo (Nat.le_add_left _ _) hn' hlt hload hreach fun k hk => ?_⟩
  rcases mem_cons.mp hk with rfl | hk
  · exact Nat.lt_succ_self _
  · exact Nat.lt_succ_of_lt (h.heard k hk)

/-- The first block. -/
theorem exists_sentUpTo_one (hoack : srv.oack = some p) :
    ∃ s, SentUpTo srv size c₀ (load c₀.mem c₀.saveAddr size) s 1 := by
  have hsender : Sender srv size c₀ (opened (offered c₀ size) srv.port p) 1 :=
    ⟨rfl, rfl, rfl, rfl, rfl, rfl, rfl, oackBlkSize_eq hoack, rfl, rfl, rfl⟩
  have hblocks : 1 ≤ blockCount (load c₀.mem c₀.saveAddr size) srv.blkSize := Nat.le_add_left _ _
  have hload := hsender.loadBlock_eq hsize hmem le_rfl (by decide) hblocks
  have hgreet : UploadStep srv ⟨offered c₀ size, [], [], []⟩ _ := .greet _ rfl
  rw [TftpPeer.greeting, hoack, tftpHandler_oack (.inl (.inr rfl)), oackPacket_writing rfl] at hgreet
  have hstart : UploadReach srv size c₀ ⟨offered c₀ size, [], [], []⟩ := by
    rw [UploadReach, uploadStart, tftpStart_put]
  have hreach := hsender.arrive hblocks (hstart.tail hgreet)
  rw [Nat.mod_eq_of_lt (show 0 + 1 < 2 ^ 16 by decide), hload] at hreach
  exact ⟨_, hsender.sentUpTo le_rfl (by decide) hblocks hload hreach fun k hk => absurd hk not_mem_nil⟩

/-- The first `n` blocks, as long as their numbers do not wrap. -/
theorem exists_sentUpTo (hoack : srv.oack = some p) (hn : 1 ≤ n) (hn' : n < 2 ^ 16)
    (hle : n ≤ blockCount (load c₀.mem c₀.saveAddr size) srv.blkSize) :
    ∃ s, SentUpTo srv size c₀ (load c₀.mem c₀.saveAddr size) s n := by
  induction n, hn using Nat.le_induction with
  | base => exact exists_sentUpTo_one hsize hmem hoack
  | succ n hn ih =>
    obtain ⟨s, h⟩ := ih (by omega) (by omega)
    exact h.next hsize hmem hn hn' hle

end

/-- After the last block, any acknowledgement completes the upload. -/
theorem SentUpTo.complete (h : SentUpTo srv size c₀ file s n)
    (hlast : n = blockCount file srv.blkSize) (hk : 1 ≤ k) (hkn : k ≤ n) :
    ∃ s', UploadReach srv size c₀ s' ∧ s'.client.netState = .success ∧ s'.heard = k :: s.heard := by
  have hack : UploadStep srv s _ := .acknowledge s k hk
    (by rw [h.accepted, length_firstBlocks]; exact hkn) h.sender.run
  rw [tftpHandler_ack (.inr h.sender.port), ackPacket_final h.sender.writing
    (by rw [h.final, decide_eq_true hlast])] at hack
  exact ⟨_, h.reach.tail hack, rfl, rfl⟩

end Runs

/-! ### A server that knows no options -/

section NoOptions

variable {srv : TftpPeer} {c₀ : Tftp} {s : Upload} {size : ℕ}

/-- An upload that never gets beyond its request. -/
structure Unanswered (s : Upload) : Prop where
  state : s.client.tftpState = .sendWrq
  writing : s.client.tftpWriting = true
  final : s.client.tftpFinalBlock = false
  accepted : s.accepted = []
  inbox : NoData s.inbox
  running : s.client.netState ≠ .success

theorem final_turned (c : Tftp) (b : ℕ) : (turned c b).tftpFinalBlock = c.tftpFinalBlock := by
  rw [turned, updateBlockNumber]
  split <;> rfl

theorem netState_turned (c : Tftp) (b : ℕ) : (turned c b).netState = c.netState := by
  rw [turned, updateBlockNumber]
  split <;> rfl

/-- The acknowledgement of block 0 makes the client ask again. -/
theorem Unanswered.greet (h : Unanswered s) (hoack : srv.oack = none) :
    Unanswered (s.react (tftpHandler s.client s.client.tftpOurPort srv.port srv.greeting)) := by
  rw [TftpPeer.greeting, hoack, tftpHandler_ack (.inl (.inr h.state)),
    ackPacket_not_final h.writing h.final]
  generalize (ntohs (htons 0) + 1) % 2 ^ 16 = b
  have hkeeps := keeps_turned s.client b
  have hturned : ∀ inbox, NoData inbox → Unanswered ⟨turned s.client b, inbox, s.accepted, s.heard⟩ :=
    fun _ hbox => ⟨hkeeps.state.trans h.state, hkeeps.writing.trans h.writing,
      (final_turned _ _).trans h.final, h.accepted, hbox, fun hdone => h.running
      ((netState_turned _ _).symm.trans hdone)⟩
  split
  · rw [tftpSend_writeRequest (hkeeps.state.trans h.state)]
    exact hturned _ (h.inbox.append_request _ _ _)
  · rw [Upload.react, append_nil]
    exact hturned _ h.inbox

theorem Unanswered.timeout (h : Unanswered s) : Unanswered (s.react (tftpTimeout s.client)) := by
  rcases tftpTimeout_cases (show s.client.tftpState ≠ .recvWrq by rw [h.state]; decide) with htick | htick
  · rw [htick, Upload.react, append_nil]
    exact ⟨h.state, h.writing, h.final, h.accepted, h.inbox, fun hdone => (by cases hdone)⟩
  · rw [htick, tftpSend_writeRequest (c := ticked s.client) h.state]
    exact ⟨h.state, h.writing, h.final, h.accepted, h.inbox.append_request _ _ _, h.running⟩

theorem UploadReach.unanswered (h : UploadReach srv size c₀ s) (hoack : srv.oack = none) :
    Unanswered s := by
  induction h with
  | refl =>
    exact ⟨rfl, rfl, rfl, rfl, fun p hp => absurd hp not_mem_nil, fun hdone => (by cases hdone)⟩
  | tail _ hstep ih =>
    cases hstep with
    | arrive q rest hbox =>
      have hnone := ih.inbox
      rw [hbox] at hnone
      refine ⟨ih.state, ih.writing, ih.final, ?_, (forall_mem_cons.mp hnone).2, ih.running⟩
      rw [srv.accept_of_ne_data _ (hnone q mem_cons_self)]
      exact ih.accepted
    | greet hrun => exact ih.greet hoack
    | acknowledge k hk hle hrun =>
      rw [ih.accepted, length_nil] at hle
      omega
    | timeout hrun => exact ih.timeout

end NoOptions

/-! ### The law -/

section Law

variable {srv : TftpPeer} {size : ℕ} {p : List UInt8}

/-- A single block is transmitted. -/
theorem uploads_single (hoack : srv.oack = some p) (hsize : size < srv.blkSize) :
    Uploads srv size := by
  intro c₀ hmem
  have hlt := srv.blkSize_lt
  have hlen : (load c₀.mem c₀.saveAddr size).length < srv.blkSize := by rwa [length_load]
  have hone : blockCount (load c₀.mem c₀.saveAddr size) srv.blkSize = 1 := by
    rw [blockCount, Nat.div_eq_of_lt hlen]
  refine ⟨fun s hs => ?_, fun s hs hdone => ?_, ?_⟩
  · rw [firstBlocks_single hlen]
    cases (hs.inv hsize hmem hoack).phase with
    | asking _ _ _ _ haccepted =>
      rw [haccepted]
      exact nil_prefix
    | sending _ _ _ hfirst =>
      rcases hfirst with ⟨hnil, -⟩ | hfile
      · rw [hnil]
        exact nil_prefix
      · rw [hfile]
  · rw [firstBlocks_single hlen, hone]
    exact (hs.inv hsize hmem hoack).success hdone
  · obtain ⟨s, h⟩ := exists_sentUpTo_one (by omega) hmem hoack
    obtain ⟨s', hreach, hdone, -⟩ := h.complete hone.symm le_rfl le_rfl
    exact ⟨s', hreach, hdone⟩

theorem idle_fits (mem : ℕ → UInt8) (hsize : size < 2 ^ 64) :
    (idleClient mem).saveAddr + size ≤ 2 ^ 64 := by
  rw [show (idleClient mem).saveAddr = 0 from rfl]
  omega

/-- With more than one block, an old acknowledgement completes the upload. -/
theorem not_uploads_of_blocks (hoack : srv.oack = some p) (hlt : size < 2 ^ 64)
    (hsize : srv.blkSize ≤ size) (hfew : size < (2 ^ 16 - 1) * srv.blkSize) : ¬ Uploads srv size := by
  intro h
  have hmem := idle_fits (fun _ => 0) hlt
  obtain ⟨file, hfile⟩ : ∃ file, file = load (idleClient fun _ => 0).mem
      (idleClient fun _ => 0).saveAddr size :=
    ⟨_, rfl⟩
  have hlen : file.length = size := by rw [hfile, length_load]
  have hlo : 2 ≤ blockCount file srv.blkSize := by
    rw [blockCount, hlen]
    exact Nat.succ_le_succ ((Nat.one_le_div_iff srv.blkSize_pos).mpr hsize)
  have hhi : blockCount file srv.blkSize < 2 ^ 16 := by
    rw [blockCount, hlen]
    exact Nat.succ_lt_succ ((Nat.div_lt_iff_lt_mul srv.blkSize_pos).mpr hfew)
  obtain ⟨s, hs⟩ := exists_sentUpTo hlt hmem hoack (by omega) hhi (hfile ▸ le_rfl)
  rw [← hfile] at hs
  -- the acknowledgement of the last block but one arrives again
  obtain ⟨s', hreach, hdone, hheard⟩ := hs.complete (k := blockCount file srv.blkSize - 1) rfl (by omega)
    (Nat.sub_le _ _)
  have hmem' := ((h _ hmem).completion s' hreach hdone).2
  rw [← hfile, hheard] at hmem'
  rcases mem_cons.mp hmem' with heq | hin
  · omega
  · exact lt_irrefl _ (hs.heard _ hin)

/-- A memory in which the first byte of block 65536 differs from all others. -/
def markedMem (blkSize a : ℕ) : UInt8 := if a = (2 ^ 16 - 1) * blkSize then 1 else 0

/-- The block with number 0 is not block 65536. -/
theorem loadBlock_zero_ne {c : Tftp} (hc : Sender srv size (idleClient (markedMem srv.blkSize)) c 0)
    (hlt : size < 2 ^ 64) (hmany : (2 ^ 16 - 1) * srv.blkSize ≤ size) :
    loadBlock c 0 srv.blkSize ≠ blockAt (load (markedMem srv.blkSize) 0 size) srv.blkSize (2 ^ 16) := by
  intro heq
  have hpos := srv.blkSize_pos
  have hbound := srv.blkSize_lt
  rw [loadBlock_zero hc.wrap hpos hbound hc.saveAddr, blockAt_load, hc.xferSize,
    hc.mem, show (idleClient (markedMem srv.blkSize)).mem = markedMem srv.blkSize from rfl] at heq
  have hlen := congrArg length heq
  rw [length_load, length_load] at hlen
  have hfirst := congrArg (fun l => l.getD 0 0) heq
  rw [load_getD_zero (by omega), load_getD_zero (by omega), markedMem, markedMem, if_neg (by omega),
    if_pos (by omega)] at hfirst
  cases hfirst

/-- With 65536 blocks or more, the block with number 0 is loaded from the wrong place. -/
theorem not_uploads_of_wrap (hoack : srv.oack = some p) (hlt : size < 2 ^ 64)
    (hmany : (2 ^ 16 - 1) * srv.blkSize ≤ size) : ¬ Uploads srv size := by
  intro h
  have hmem := idle_fits (markedMem srv.blkSize) hlt
  have hblocks : 2 ^ 16 - 1 < blockCount (load (markedMem srv.blkSize) 0 size) srv.blkSize := by
    rw [blockCount, length_load]
    exact Nat.lt_succ_of_le ((Nat.le_div_iff_mul_le srv.blkSize_pos).mpr hmany)
  obtain ⟨s, hs⟩ := exists_sentUpTo hlt hmem hoack (show 1 ≤ 2 ^ 16 - 1 by decide) (by decide) hblocks.le
  have hseq := (h _ hmem).sequence _ (hs.exchange (by decide) (by decide) hblocks)
  have hget := hseq.getElem (i := 2 ^ 16 - 1) (by simp)
  refine loadBlock_zero_ne (hs.sender.atBlock 0) hlt hmany ?_
  simpa [firstBlocks, idleClient] using hget

/-- An upload transmits the memory area for all contents of it and all delays and repetitions of
acknowledgements if and only if the server acknowledges options and the area fits into one block. -/
theorem uploads_iff_single (srv : TftpPeer) (hlt : size < 2 ^ 64) :
    Uploads srv size ↔ srv.oack.isSome ∧ size < srv.blkSize := by
  rcases hoack : srv.oack with _ | p
  · refine iff_of_false (fun h => ?_) (by simp)
    obtain ⟨s, hreach, hdone⟩ := (h _ (idle_fits (fun _ => 0) hlt)).completes
    exact (hreach.unanswered hoack).running hdone
  refine ⟨fun h => ⟨rfl, ?_⟩, fun h => uploads_single hoack h.2⟩
  by_contra hsize
  rcases lt_or_ge size ((2 ^ 16 - 1) * srv.blkSize) with hfew | hmany
  · exact not_uploads_of_blocks hoack hlt (not_lt.mp hsize) hfew h
  · exact not_uploads_of_wrap hoack hlt hmany h

/-- A server that acknowledges blocks of 512 bytes. -/
def ackingPeer : TftpPeer :=
  ⟨2000, 512, some (cstr "blksize" ++ cstr "512"), tftpBlockSize_pos, tftpBlockSize_lt, by decide⟩

theorem uploads_iff_single_hundred : 100 < 2 ^ 64 ∧ Uploads ackingPeer 100 :=
  ⟨by decide, (uploads_iff_single ackingPeer (by decide)).mpr ⟨rfl, by decide⟩⟩

/-- A block and an empty one after it. -/
theorem not_uploads_two_blocks : ¬ Uploads ackingPeer 512 :=
  not_uploads_of_blocks rfl (by decide) (by decide) (by decide)

end Law

end UBoot.Net
