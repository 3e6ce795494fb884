import Mathlib.Data.Set.Insert
import Mathlib.Logic.Relation
import UBoot.Common.Blocks
import UBoot.Net.TftpClient

/-!
# A TFTP download

The client together with a lock-step server and a network that delays, duplicates and loses packets.
The network is the record of what has been sent: any packet in it may arrive at any time, any number
of times or never. The server sends a block when the acknowledgement of the one before it has
arrived.
-/

namespace UBoot.Net

open UBoot.Common List

/-- A server with the file it sends. -/
structure TftpServer extends TftpPeer where
  file : List UInt8

namespace TftpServer

variable (srv : TftpServer)

/-- The number of blocks. -/
def blocks : ℕ := blockCount srv.file srv.blkSize

/-- Block `k`. -/
def blockData (k : ℕ) : List UInt8 := blockAt srv.file srv.blkSize k

/-- The packets that the server sends: the acknowledgement of the options and the blocks. -/
def packet : ℕ → List UInt8
  | 0 => htons 6 ++ srv.oack.getD []
  | k + 1 => htons 3 ++ (htons ((k + 1) % 2 ^ 16) ++ srv.blockData (k + 1))

/-- The first packet that is sent. -/
def first : ℕ := if srv.oack.isSome then 0 else 1

end TftpServer

/-- The client, the last packet the server has sent, and all that the client has sent. -/
structure Download where
  client : Tftp
  sent : ℕ
  toServer : List Udp

/-- A step of the client, and what it sends. -/
def Download.react (s : Download) (r : Tftp × List Udp) : Download :=
  { s with client := r.1, toServer := s.toServer ++ r.2 }

/-- What can happen: a packet of the server arrives, an acknowledgement of the last packet arrives
at the server, or the client runs into a timeout. -/
inductive DownloadStep (srv : TftpServer) : Download → Download → Prop
  | deliver (s : Download) (k : ℕ) (hfirst : srv.first ≤ k) (hsent : k ≤ s.sent)
      (hrun : s.client.netState = .running) :
      DownloadStep srv s (s.react (tftpHandler s.client s.client.tftpOurPort srv.port (srv.packet k)))
  | acknowledge (s : Download) (p : Udp) (hp : p ∈ s.toServer) (hport : p.dport = srv.port)
      (hop : ntohs p.data = 4) (hblock : ntohs (p.data.drop 2) = s.sent % 2 ^ 16)
      (hlt : s.sent < srv.blocks) :
      DownloadStep srv s { s with sent := s.sent + 1 }
  | timeout (s : Download) (hrun : s.client.netState = .running) :
      DownloadStep srv s (s.react (tftpTimeout s.client))

/-- The download after the server has answered the request. -/
def TftpServer.start (srv : TftpServer) (c₀ : Tftp) : Download :=
  ⟨(tftpStart c₀ none).1, srv.first, (tftpStart c₀ none).2⟩

/-- The file is in memory at the load address, its length is reported, and nothing else was
written. -/
structure Delivered (srv : TftpServer) (c₀ c : Tftp) : Prop where
  file : Contains c.mem c₀.loadAddr srv.file
  size : c.netBootFileXferSize = srv.file.length
  outside : ∀ a, a < c₀.loadAddr ∨ c₀.loadAddr + srv.file.length ≤ a → c.mem a = c₀.mem a

/-- Whatever the network does, a download that ends with success has delivered the file. -/
def Downloads (srv : TftpServer) : Prop :=
  ∀ c₀ : Tftp, c₀.loadAddr + srv.file.length ≤ 2 ^ 64 → ∀ s,
    Relation.ReflTransGen (DownloadStep srv) (srv.start c₀) s → s.client.netState = .success →
    Delivered srv c₀ s.client

/-! ### Offsets -/

section Offsets

variable {srv : TftpServer} {c : Tftp} {k : ℕ}

/-- A product that fits into an `int` is not changed. -/
theorem intMul_of_lt {m n : ℕ} (h : m * n < 2 ^ 31) : intMul m n = m * n := by
  rw [intMul, Int.bmod_eq_of_le (by omega) (by omega)]
  omega

theorem intMul_neg_one {n : ℕ} (hpos : 0 < n) (h : n < 2 ^ 16) : intMul (-1) n = 2 ^ 64 - n := by
  rw [intMul, Int.bmod_eq_of_le (by omega) (by omega)]
  omega

/-- A product that does not fit becomes negative, and huge as a `ulong`. -/
theorem intMul_of_ge {m n : ℕ} (h : 2 ^ 31 ≤ m * n) (h' : m * n < 2 ^ 32) :
    intMul m n = m * n + (2 ^ 64 - 2 ^ 32) := by
  rw [intMul, Int.bmod_def]
  omega

/-- All block numbers of the file are used once, and no offset overflows an `int`. -/
def FitsSequence (srv : TftpServer) : Prop :=
  srv.file.length < 2 ^ 16 * srv.blkSize ∧
    ∀ k < 2 ^ 16 - 1, k * srv.blkSize ≤ srv.file.length → k * srv.blkSize < 2 ^ 31

instance (srv : TftpServer) : Decidable (FitsSequence srv) :=
  inferInstanceAs (Decidable (_ ∧ ∀ k < 2 ^ 16 - 1, _ → _))

theorem FitsSequence.blocks_le (h : FitsSequence srv) : srv.blocks ≤ 2 ^ 16 := by
  have hdiv := (Nat.div_lt_iff_lt_mul srv.blkSize_pos).mpr h.1
  exact hdiv

/-- In the first run through the block numbers every block has its own place. -/
theorem FitsSequence.offsetAt_eq (h : FitsSequence srv) (hk : 1 ≤ k) (hle : k ≤ srv.blocks)
    (hsize : c.tftpBlkSize = srv.blkSize) (hwrap : c.tftpBlockWrapOffset = 0)
    (hlast : k = 2 ^ 16 → c.tftpLastBlock ≠ 0) : offsetAt c (k % 2 ^ 16) = (k - 1) * srv.blkSize := by
  have hpos := srv.blkSize_pos
  have hlt := srv.blkSize_lt
  have hblocks := h.blocks_le
  rcases lt_or_eq_of_le (hle.trans hblocks) with hlt' | rfl
  · have hmul := h.2 (k - 1) (by omega) (sub_one_mul_le hle)
    have hk' : ((k : ℕ) : ℤ) - 1 = ((k - 1 : ℕ) : ℤ) := by omega
    rw [Nat.mod_eq_of_lt hlt', offsetAt, wrapOffsetAt, if_neg (by omega), hsize, hk', intMul_of_lt hmul]
    omega
  · rw [Nat.mod_self, offsetAt, wrapOffsetAt, if_pos ⟨rfl, hlast rfl⟩, hsize,
      show ((0 : ℕ) : ℤ) - 1 = -1 from rfl, intMul_neg_one hpos hlt, tftpSequenceSize]
    omega

end Offsets

/-! ### What has been stored -/

section Stored

variable {srv : TftpServer} {c₀ c : Tftp} {got : Set ℕ} {k b : ℕ}

/-- The blocks in `got` are in memory, and nothing outside the file was written. -/
structure Stored (srv : TftpServer) (c₀ : Tftp) (got : Set ℕ) (c : Tftp) : Prop where
  loadAddr : c.loadAddr = c₀.loadAddr
  block : ∀ k ∈ got, Contains c.mem (c₀.loadAddr + (k - 1) * srv.blkSize) (srv.blockData k)
  outside : ∀ a, a < c₀.loadAddr ∨ c₀.loadAddr + srv.file.length ≤ a → c.mem a = c₀.mem a
  size_le : c.netBootFileXferSize ≤ srv.file.length
  le_size : ∀ k ∈ got, (k - 1) * srv.blkSize + (srv.blockData k).length ≤ c.netBootFileXferSize

section

variable (h : Stored srv c₀ got c) (hmem : c₀.loadAddr + srv.file.length ≤ 2 ^ 64) (hk : 1 ≤ k)
  (hle : k ≤ srv.blocks) (hoff : offsetAt c b = (k - 1) * srv.blkSize)

include h hmem hk hle hoff

/-- A block is stored at its place; an empty one at the top of memory is not stored at all. -/
theorem Stored.mem_afterBlock :
    (afterBlock c b (srv.blockData k)).mem = store c.mem (c₀.loadAddr + (k - 1) * srv.blkSize)
    (srv.blockData k) := by
  have hend : (k - 1) * srv.blkSize + (srv.blockData k).length = min _ _ := end_of_blockAt hk hle
  show store _ _ _ = _
  rw [hoff, h.loadAddr]
  by_cases hnil : srv.blockData k = []
  · rw [hnil, store_nil, store_nil]
  · have hpos := length_pos_iff.mpr hnil
    rw [Nat.mod_eq_of_lt (by omega)]

/-- Storing one more block, or the same one again. -/
theorem Stored.insert_block (hlen : srv.file.length < 2 ^ 64)
    (hgot : ∀ k ∈ got, 1 ≤ k ∧ k ≤ srv.blocks) :
    Stored srv c₀ (insert k got) (afterBlock c b (srv.blockData k)) := by
  have hend : (k - 1) * srv.blkSize + (srv.blockData k).length = min _ _ := end_of_blockAt hk hle
  have hsize : (afterBlock c b (srv.blockData k)).netBootFileXferSize =
      max c.netBootFileXferSize ((k - 1) * srv.blkSize + (srv.blockData k).length) := by
    show xferSizeAt c b _ = _
    rw [xferSizeAt, hoff, Nat.mod_eq_of_lt (by omega)]
  have hstore := h.mem_afterBlock hmem hk hle hoff
  refine ⟨h.loadAddr, ?_, ?_, ?_, ?_⟩
  · rw [hstore]
    rintro m (rfl | hm)
    · exact contains_store _ _ _
    · rcases eq_or_ne m k with rfl | hne
      · exact contains_store _ _ _
      · obtain ⟨hm1, hmle⟩ := hgot m hm
        have hendm : (m - 1) * srv.blkSize + (srv.blockData m).length = min _ _ := end_of_blockAt hm1 hmle
        refine (h.block m hm).congr fun a ha hb => store_of_outside _ _ _ ?_
        rcases lt_or_gt_of_ne hne with hlt | hlt
        · have := Nat.mul_le_mul_right srv.blkSize (show m ≤ k - 1 by omega)
          omega
        · have := Nat.mul_le_mul_right srv.blkSize (show k ≤ m - 1 by omega)
          omega
  · intro a ha
    rw [hstore, store_of_outside _ _ _ (by omega)]
    exact h.outside a ha
  · have := h.size_le
    omega
  · rw [hsize]
    rintro m (rfl | hm)
    · exact le_max_right _ _
    · exact (h.le_size m hm).trans (le_max_left _ _)

end

/-- When all blocks are stored the file is delivered. -/
theorem Stored.delivered (h : Stored srv c₀ got c) (hall : ∀ k, 1 ≤ k → k ≤ srv.blocks → k ∈ got) :
    Delivered srv c₀ c := by
  have hblocks : 1 ≤ srv.blocks := Nat.le_add_left _ _
  refine ⟨contains_of_blocks srv.blkSize_pos fun k hk hle => h.block k (hall k hk hle), ?_, h.outside⟩
  have hge := h.le_size srv.blocks (hall _ hblocks le_rfl)
  have hend : (srv.blocks - 1) * srv.blkSize + (srv.blockData srv.blocks).length = min _ _ :=
    end_of_blockAt hblocks le_rfl
  have hlast : (srv.blockData srv.blocks).length < srv.blkSize :=
    (length_blockAt_lt_iff srv.blkSize_pos hblocks le_rfl).mpr rfl
  have hmul := mul_eq_sub_one_mul srv.blkSize hblocks
  have hle := h.size_le
  omega

end Stored

/-! ### The invariant -/

section Safety

variable {srv : TftpServer} {c₀ : Tftp} {got : Set ℕ} {s : Download} {k : ℕ}

/-- How far a running download is: no answer yet, options acknowledged, blocks received. -/
inductive Phase (srv : TftpServer) (got : Set ℕ) (s : Download) : Prop
  | asking (hs : s.client.tftpState = .sendRrq) (hsize : s.client.tftpBlkSize = tftpBlockSize)
      (hsent : s.sent = srv.first) (hacks : ∀ p ∈ s.toServer, ntohs p.data ≠ 4)
  | starting (hs : s.client.tftpState = .oack) (hport : s.client.tftpRemotePort = srv.port)
      (hsize : s.client.tftpBlkSize = srv.blkSize)
  | going (hs : s.client.tftpState = .data) (hport : s.client.tftpRemotePort = srv.port)
      (hsize : s.client.tftpBlkSize = srv.blkSize) (hwrap : s.client.tftpBlockWrapOffset = 0)
      (hlast : s.client.tftpLastBlock ∈ got)

/-- A running download: the client has stored every block whose successor was sent, and acknowledges
only blocks that it has stored. -/
structure Running (srv : TftpServer) (c₀ : Tftp) (got : Set ℕ) (s : Download) : Prop where
  sent_le : s.sent ≤ srv.blocks
  stored : Stored srv c₀ got s.client
  got_pos : ∀ k ∈ got, 1 ≤ k ∧ k ≤ s.sent
  got_of_lt : ∀ k, 1 ≤ k → k < s.sent → k ∈ got
  reading : s.client.tftpWriting = false
  block : s.client.tftpBlock = 0 ∨ s.client.tftpBlock ∈ got
  acks : ∀ p ∈ s.toServer, ntohs p.data = 4 → ntohs (p.data.drop 2) = 0 ∨ ntohs (p.data.drop 2) ∈ got
  phase : Phase srv got s

/-- The invariant of a download. -/
structure DownloadInv (srv : TftpServer) (c₀ : Tftp) (s : Download) : Prop where
  running : s.client.netState = .running → ∃ got, Running srv c₀ got s
  success : s.client.netState = .success → Delivered srv c₀ s.client

theorem Stored.congr {c c' : Tftp} (h : Stored srv c₀ got c) (haddr : c'.loadAddr = c.loadAddr)
    (hmem : c'.mem = c.mem) (hsize : c'.netBootFileXferSize = c.netBootFileXferSize) :
    Stored srv c₀ got c' := by
  refine ⟨haddr.trans h.loadAddr, ?_, ?_, ?_, ?_⟩
  · rw [hmem]
    exact h.block
  · rw [hmem]
    exact h.outside
  · rw [hsize]
    exact h.size_le
  · rw [hsize]
    exact h.le_size

/-- Acknowledgements of blocks that are stored may be sent. -/
theorem acks_append {toServer : List Udp} {n : ℕ} {sport dport : ℕ}
    (h : ∀ p ∈ toServer, ntohs p.data = 4 → ntohs (p.data.drop 2) = 0 ∨ ntohs (p.data.drop 2) ∈ got)
    (hn : n % 2 ^ 16 = 0 ∨ n % 2 ^ 16 ∈ got) :
    ∀ p ∈ toServer ++ [⟨sport, dport, htons 4 ++ htons (n % 2 ^ 16)⟩], ntohs p.data = 4 →
      ntohs (p.data.drop 2) = 0 ∨ ntohs (p.data.drop 2) ∈ got := by
  intro p hp hop
  rcases mem_append.mp hp with hp | hp
  · exact h p hp hop
  rw [mem_singleton.mp hp]
  have hnum : ntohs (htons (n % 2 ^ 16) ++ []) = n % 2 ^ 16 := by
    rw [ntohs_htons, Nat.mod_mod]
  rw [append_nil] at hnum
  rw [drop_htons, hnum]
  exact hn

theorem Running.got_blocks (h : Running srv c₀ got s) : ∀ k ∈ got, 1 ≤ k ∧ k ≤ srv.blocks :=
  fun k hk =>
  ⟨(h.got_pos k hk).1, (h.got_pos k hk).2.trans h.sent_le⟩

theorem first_le_one (srv : TftpServer) : srv.first ≤ 1 := by
  rw [TftpServer.first]
  split <;> decide

section

variable (h : Running srv c₀ got s)

include h

theorem Running.listens : Listens s.client srv.port := by
  cases h.phase with
  | asking hs => exact .inl (.inl hs)
  | starting hs hport | going hs hport => exact .inr hport

/-- A step that stores nothing. -/
theorem Running.react {c : Tftp} {out : List Udp} (hstored : Stored srv c₀ got c)
    (hw : c.tftpWriting = false) (hblock : c.tftpBlock = 0 ∨ c.tftpBlock ∈ got)
    (hrun : c.netState = .running)
    (hacks : ∀ p ∈ s.toServer ++ out, ntohs p.data = 4 → ntohs (p.data.drop 2) = 0 ∨
      ntohs (p.data.drop 2) ∈ got)
    (hphase : Phase srv got (s.react (c, out))) : DownloadInv srv c₀ (s.react (c, out)) :=
  ⟨fun _ => ⟨got, h.sent_le, hstored, h.got_pos, h.got_of_lt, hw, hblock, hacks, hphase⟩,
    fun hdone => absurd (hrun.symm.trans hdone) (by decide)⟩

/-- The last block arrives again. -/
theorem Running.same_block {b : ℕ} (hb : b = s.client.tftpLastBlock)
    (hs : s.client.tftpState = .data) (hport : s.client.tftpRemotePort = srv.port)
    (hsize : s.client.tftpBlkSize = srv.blkSize) (hwrap : s.client.tftpBlockWrapOffset = 0)
    (hlast : s.client.tftpLastBlock ∈ got) (hrun : s.client.netState = .running) :
    DownloadInv srv c₀ (s.react (updateBlockNumber { s.client with tftpBlock := b }, [])) := by
  rw [updateBlockNumber_eq]
  refine h.react (h.stored.congr rfl rfl rfl) h.reading (.inr (hb ▸ hlast)) hrun ?_
    (.going hs hport hsize ?_ hlast)
  · rw [append_nil]
    exact h.acks
  · show wrapOffsetAt s.client b = 0
    rw [wrapOffsetAt, if_neg (by omega), hwrap]

variable (hfit : FitsSequence srv)

include hfit

theorem Running.block_mod : s.client.tftpBlock % 2 ^ 16 = 0 ∨
    s.client.tftpBlock % 2 ^ 16 ∈ got := by
  rcases h.block with hz | hgot
  · exact .inl (by rw [hz, Nat.zero_mod])
  have hb := hfit.blocks_le
  have hle := (h.got_blocks _ hgot).2
  rcases lt_or_eq_of_le (hle.trans hb) with hlt | heq
  · exact .inr (by rwa [Nat.mod_eq_of_lt hlt])
  · exact .inl (by rw [heq, Nat.mod_self])

/-- An acknowledgement of the options arrives. -/
theorem Running.oack (hfirst : srv.first = 0) (hrun : s.client.netState = .running) :
    DownloadInv srv c₀ (s.react (tftpHandler s.client s.client.tftpOurPort srv.port (srv.packet 0))) := by
  obtain ⟨p, hp⟩ : ∃ p, srv.oack = some p := by
    rw [TftpServer.first] at hfirst
    split at hfirst
    · exact Option.isSome_iff_exists.mp ‹_›
    · cases hfirst
  have hagreed : oackBlkSize tftpBlockSize p = srv.blkSize := by
    have := srv.agreed
    rwa [hp] at this
  rw [TftpServer.packet, hp, tftpHandler_oack h.listens, oackPacket_reading h.reading]
  refine h.react (h.stored.congr rfl rfl rfl) h.reading h.block hrun
    (acks_append h.acks (h.block_mod hfit)) (.starting rfl rfl ?_)
  show oackBlkSize s.client.tftpBlkSize p = srv.blkSize
  cases h.phase with
  | asking hs hsize => rw [hsize, hagreed]
  | starting hs hport hsize | going hs hport hsize => rw [hsize, ← hagreed, oackBlkSize_idem]

/-- The timer runs out. -/
theorem Running.timeout (hrun : s.client.netState = .running) :
    DownloadInv srv c₀ (s.react (tftpTimeout s.client)) := by
  have hstate : s.client.tftpState ≠ .recvWrq := by
    cases h.phase with
    | asking hs | starting hs | going hs => simp [hs]
  rcases tftpTimeout_cases hstate with htick | htick
  · rw [htick]
    exact ⟨fun hgo => (by cases hgo), fun hdone => (by cases hdone)⟩
  rw [htick]
  cases h.phase with
  | asking hs hsize hfirst hacks =>
    rw [tftpSend_request (c := ticked s.client) hs]
    have hnew : ∀ p ∈ s.toServer ++ [⟨s.client.tftpOurPort, s.client.tftpRemotePort,
        request (ticked s.client) 1⟩], ntohs p.data ≠ 4 := by
      refine forall_mem_append.mpr ⟨hacks, forall_mem_singleton.mpr ?_⟩
      rw [ntohs_request]
      decide
    exact h.react (h.stored.congr rfl rfl rfl) h.reading h.block hrun
      (fun p hp hop => absurd hop (hnew p hp)) (.asking hs hsize hfirst hnew)
  | starting hs hport hsize =>
    rw [tftpSend_reading (c := ticked s.client) h.reading (.inl hs)]
    exact h.react (h.stored.congr rfl rfl rfl) h.reading h.block hrun
      (acks_append h.acks (h.block_mod hfit)) (.starting hs hport hsize)
  | going hs hport hsize hwrap hlast =>
    rw [tftpSend_reading (c := ticked s.client) h.reading (.inr hs)]
    exact h.react (h.stored.congr rfl rfl rfl) h.reading h.block hrun
      (acks_append h.acks (h.block_mod hfit)) (.going hs hport hsize hwrap hlast)

variable (hmem : c₀.loadAddr + srv.file.length ≤ 2 ^ 64) (hlen : srv.file.length < 2 ^ 64)

include hmem hlen

/-- A client that is ready for block `k` stores and acknowledges it, and is done if it is the last
one. -/
theorem Running.store {c : Tftp} (hk : 1 ≤ k) (hsent : k ≤ s.sent) (hstored : Stored srv c₀ got c)
    (hs : c.tftpState = .data) (hw : c.tftpWriting = false) (hport : c.tftpRemotePort = srv.port)
    (hsize : c.tftpBlkSize = srv.blkSize) (hwrap : c.tftpBlockWrapOffset = 0)
    (hlast : k = 2 ^ 16 → c.tftpLastBlock ≠ 0) (hrun : c.netState = .running) :
    DownloadInv srv c₀ (s.react (afterBlock c (k % 2 ^ 16) (srv.blockData k),
      [ackOf (afterBlock c (k % 2 ^ 16) (srv.blockData k))])) := by
  have hle := hsent.trans h.sent_le
  have hblocks := hfit.blocks_le
  have hoff := hfit.offsetAt_eq hk hle hsize hwrap hlast
  have hstored' := hstored.insert_block hmem hk hle hoff hlen h.got_blocks
  have hshort : (srv.blockData k).length < c.tftpBlkSize ↔ k = srv.blocks := by
    rw [hsize]
    exact length_blockAt_lt_iff srv.blkSize_pos hk hle
  have hnet : (afterBlock c (k % 2 ^ 16) (srv.blockData k)).netState =
      if (srv.blockData k).length < c.tftpBlkSize then .success else c.netState := rfl
  refine ⟨fun hgo => ⟨insert k got, ?_⟩, fun hdone => hstored'.delivered fun m hm hmle => ?_⟩
  · -- a block that is not the last one is its own number
    have hne : k ≠ srv.blocks := by
      intro heq
      rw [Download.react, hnet, if_pos (hshort.mpr heq)] at hgo
      cases hgo
    have hmod : k % 2 ^ 16 = k := Nat.mod_eq_of_lt (by omega)
    rw [hmod] at hstored' ⊢
    refine ⟨h.sent_le, hstored', ?_, fun m hm hlt => .inr (h.got_of_lt m hm hlt), hw,
      .inr (.inl rfl), ?_, .going hs hport hsize ?_ (.inl rfl)⟩
    · rintro m (rfl | hm)
      · exact ⟨hk, hsent⟩
      · exact h.got_pos m hm
    · refine acks_append (fun p hp hop => (h.acks p hp hop).imp id .inr) (.inr ?_)
      rw [show (afterBlock c k (srv.blockData k)).tftpBlock = k from rfl, hmod]
      exact .inl rfl
    · show wrapOffsetAt c k = 0
      rw [wrapOffsetAt, if_neg (by omega), hwrap]
  · have heq : k = srv.blocks := by
      by_contra hne
      rw [Download.react, hnet, if_neg (mt hshort.mp hne), hrun] at hdone
      cases hdone
    rcases lt_or_eq_of_le hmle with hlt | rfl
    · exact .inr (h.got_of_lt m hm (by omega))
    · exact .inl heq.symm

/-- The first block arrives. -/
theorem Running.first_block (hsent : 1 ≤ s.sent)
    (hs : s.client.tftpState = .sendRrq ∨ s.client.tftpState = .oack)
    (hsize : s.client.tftpBlkSize = srv.blkSize) (hrun : s.client.netState = .running) :
    DownloadInv srv c₀ (s.react (dataPacket s.client srv.port 1 (srv.blockData 1))) := by
  rw [dataPacket_first hs h.reading]
  exact h.store hfit hmem hlen le_rfl hsent (h.stored.congr rfl rfl rfl) rfl h.reading rfl hsize rfl
    (fun hk => absurd hk (by decide)) hrun

/-- A block arrives. -/
theorem Running.data (hsent : k + 1 ≤ s.sent) (hrun : s.client.netState = .running) :
    DownloadInv srv c₀ (s.react (tftpHandler s.client s.client.tftpOurPort srv.port
    (srv.packet (k + 1)))) := by
  rw [TftpServer.packet, tftpHandler_data h.listens, Nat.mod_mod]
  cases h.phase with
  | asking hs hsize hfirst =>
    -- nothing but the first packet can have been sent
    have hle := first_le_one srv
    obtain rfl : k = 0 := by omega
    have hnone : srv.oack = none := by
      by_contra hsome
      rw [TftpServer.first, if_pos (Option.isSome_iff_ne_none.mpr hsome)] at hfirst
      omega
    have hagreed := srv.agreed
    rw [hnone] at hagreed
    exact h.first_block hfit hmem hlen hsent (.inl hs) (hsize.trans hagreed) hrun
  | starting hs hport hsize =>
    by_cases hb : (k + 1) % 2 ^ 16 = 1
    · have hblocks := hfit.blocks_le
      have hle := h.sent_le
      obtain rfl : k = 0 := by omega
      exact h.first_block hfit hmem hlen hsent (.inr hs) hsize hrun
    · have hrestart : (dataPacket s.client srv.port _ (srv.blockData (k + 1))).1.netState = _ :=
        dataPacket_not_first (.inr hs) hb
      exact ⟨fun hgo => absurd (hrestart.symm.trans hgo) (by decide),
        fun hdone => absurd (hrestart.symm.trans hdone) (by decide)⟩
  | going hs hport hsize hwrap hlast =>
    rw [dataPacket_of_data hs]
    by_cases hb : (k + 1) % 2 ^ 16 = s.client.tftpLastBlock
    · rw [updateBlockNumber_eq, receiveBlock, if_pos hb, ← updateBlockNumber_eq]
      exact h.same_block hb hs hport hsize hwrap hlast hrun
    · rw [receiveBlock_new hs h.reading hb]
      exact h.store hfit hmem hlen (Nat.le_add_left _ _) hsent h.stored hs h.reading hport hsize
        hwrap (fun _ => by omega) hrun

end

/-- An acknowledgement arrives at the server, which sends the next block. -/
theorem DownloadInv.acknowledge (h : DownloadInv srv c₀ s) (hfit : FitsSequence srv) {p : Udp}
    (hp : p ∈ s.toServer) (hop : ntohs p.data = 4) (hblock : ntohs (p.data.drop 2) = s.sent % 2 ^ 16)
    (hlt : s.sent < srv.blocks) : DownloadInv srv c₀ { s with sent := s.sent + 1 } := by
  refine ⟨fun hrun => ?_, h.success⟩
  obtain ⟨got, h⟩ := h.running hrun
  have hblocks := hfit.blocks_le
  have hack : s.sent = 0 ∨ s.sent ∈ got := by
    have := h.acks p hp hop
    rwa [hblock, Nat.mod_eq_of_lt (by omega)] at this
  refine ⟨got, hlt, h.stored, fun k hk => ⟨(h.got_pos k hk).1, (h.got_pos k hk).2.trans (Nat.le_succ _)⟩,
    fun k hk hle => ?_, h.reading, h.block, h.acks, ?_⟩
  · rcases Nat.lt_succ_iff_lt_or_eq.mp hle with hlt' | rfl
    · exact h.got_of_lt k hk hlt'
    · exact hack.resolve_left (by omega)
  · cases h.phase with
    | asking hs hsize hfirst hacks => exact absurd hop (hacks p hp)
    | starting hs hport hsize => exact .starting hs hport hsize
    | going hs hport hsize hwrap hlast => exact .going hs hport hsize hwrap hlast

theorem DownloadInv.step {s' : Download} (h : DownloadInv srv c₀ s) (hfit : FitsSequence srv)
    (hmem : c₀.loadAddr + srv.file.length ≤ 2 ^ 64) (hlen : srv.file.length < 2 ^ 64)
    (hstep : DownloadStep srv s s') : DownloadInv srv c₀ s' := by
  cases hstep with
  | deliver k hfirst hsent hrun =>
    obtain ⟨got, hr⟩ := h.running hrun
    cases k with
    | zero => exact hr.oack hfit (Nat.le_zero.mp hfirst) hrun
    | succ k => exact hr.data hfit hmem hlen hsent hrun
  | acknowledge p hp hport hop hblock hlt => exact h.acknowledge hfit hp hop hblock hlt
  | timeout hrun =>
    obtain ⟨got, hr⟩ := h.running hrun
    exact hr.timeout hfit hrun

theorem downloadInv_start (srv : TftpServer) (c₀ : Tftp) : DownloadInv srv c₀ (srv.start c₀) := by
  have hfirst := first_le_one srv
  have hblocks : 1 ≤ srv.blocks := Nat.le_add_left _ _
  rw [TftpServer.start]
  refine ⟨fun _ => ⟨∅, ?_⟩, fun hdone => (by cases hdone)⟩
  have hnew : ∀ p ∈ [(⟨c₀.tftpOurPort, wellKnownPort, request (asked c₀) 1⟩ : Udp)], ntohs p.data ≠ 4 := by
    intro p hp
    rw [mem_singleton.mp hp, ntohs_request]
    decide
  refine ⟨hfirst.trans hblocks, ⟨rfl, fun k hk => absurd hk (Set.notMem_empty k), fun _ _ => rfl,
    Nat.zero_le _, fun k hk => absurd hk (Set.notMem_empty k)⟩, fun k hk => absurd hk (Set.notMem_empty k),
    fun k hk hlt => ?_, rfl, .inl rfl, fun p hp hop => absurd hop (hnew p hp), .asking rfl rfl rfl hnew⟩
  dsimp only at hlt
  omega

/-- A file whose block numbers do not repeat is delivered, whatever the network does. -/
theorem downloads_of_fitsSequence (hfit : FitsSequence srv) (hlen : srv.file.length < 2 ^ 64) :
    Downloads srv := by
  intro c₀ hmem s hreach
  have hinv : DownloadInv srv c₀ s := by
    induction hreach with
    | refl => exact downloadInv_start srv c₀
    | tail _ hstep ih => exact ih.step hfit hmem hlen hstep
  exact hinv.success

end Safety

end UBoot.Net
