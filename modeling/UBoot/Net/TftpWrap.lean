import UBoot.Net.TftpDownload

/-!
# Downloads that go wrong

With 65537 blocks or more, block numbers repeat and a block that arrives again after the numbers
have wrapped is counted as another wrap, so that all later blocks are stored too far behind. And a
block whose offset does not fit into an `int` is stored far outside the file. Both happen on runs in
which the transfer ends with success, and both show in the size that is reported. For files so long
that the size may wrap around as well, old acknowledgements let the server skip a part of the file.
-/

namespace UBoot.Net

open UBoot.Common Relation List

variable {t : ℕ}

section Runs

variable {srv : TftpServer} {c₀ : Tftp} {s : Download} {k m n b w size : ℕ}

/-- A download of the server's file may come to `s`. -/
abbrev TftpServer.Reaches (srv : TftpServer) (c₀ : Tftp) (s : Download) : Prop :=
  ReflTransGen (DownloadStep srv) (srv.start c₀) s

/-- The client has sent an acknowledgement with the number of block `k`. -/
def Acked (srv : TftpServer) (toServer : List Udp) (k : ℕ) : Prop :=
  ∃ p ∈ toServer, p.dport = srv.port ∧ ntohs p.data = 4 ∧ ntohs (p.data.drop 2) = k % 2 ^ 16

theorem Acked.append {l : List Udp} (h : Acked srv l k) (l' : List Udp) :
    Acked srv (l ++ l') k := by
  obtain ⟨p, hp, hack⟩ := h
  exact ⟨p, mem_append_left _ hp, hack⟩

/-- A download that has come to block `n`: the last block stored has number `b`, and all blocks up
to `n` are acknowledged. -/
structure Ready (srv : TftpServer) (c₀ : Tftp) (s : Download) (n b w size : ℕ) : Prop where
  reach : ReflTransGen (DownloadStep srv) (srv.start c₀) s
  run : s.client.netState = .running
  state : s.client.tftpState = .data
  reading : s.client.tftpWriting = false
  port : s.client.tftpRemotePort = srv.port
  blkSize : s.client.tftpBlkSize = srv.blkSize
  last : s.client.tftpLastBlock = b
  wrap : s.client.tftpBlockWrapOffset = w
  sent : s.sent = n
  pos : 1 ≤ n
  acked : ∀ k, 1 ≤ k → k ≤ n → Acked srv s.toServer k
  addr : s.client.loadAddr = c₀.loadAddr
  size_le : size ≤ s.client.netBootFileXferSize

/-- The wrap offset after a block with number `b'`, if the last one had number `b`. -/
def nextWrap (srv : TftpServer) (b w b' : ℕ) : ℕ :=
  if b' = 0 ∧ b ≠ 0 then (w + srv.blkSize * 2 ^ 16) % 2 ^ 64 else w

/-- The end of block `m`, as the client computes it from its number and the wrap offset. -/
def computedEnd (srv : TftpServer) (w m : ℕ) : ℕ :=
  ((intMul (((m % 2 ^ 16 : ℕ) : ℤ) - 1) srv.blkSize + w) % 2 ^ 64 + (srv.blockData m).length) % 2 ^ 64

/-- The download after the client has stored block `m`. -/
def Download.storing (s : Download) (srv : TftpServer) (m : ℕ) : Download :=
  s.react (afterBlock s.client (m % 2 ^ 16) (srv.blockData m),
    [ackOf (afterBlock s.client (m % 2 ^ 16) (srv.blockData m))])

/-- A block of full size lets the client go on. -/
theorem netState_full {c : Tftp} (hsize : c.tftpBlkSize = srv.blkSize) (hm : 1 ≤ m)
    (hlt : m < srv.blocks) : (if (srv.blockData m).length < c.tftpBlkSize then NetState.success else
    c.netState) = c.netState := by
  rw [if_neg]
  rw [hsize, TftpServer.blockData, length_blockAt_of_lt srv.blkSize_pos hm hlt]
  exact lt_irrefl _

theorem length_lastBlock (srv : TftpServer) : (srv.blockData srv.blocks).length < srv.blkSize :=
  (length_blockAt_lt_iff srv.blkSize_pos (Nat.le_add_left _ _) le_rfl).mpr rfl

section

variable (h : Ready srv c₀ s n b w size)

include h

theorem Ready.wrapOffsetAt_eq (b' : ℕ) : wrapOffsetAt s.client b' = nextWrap srv b w b' := by
  rw [wrapOffsetAt, h.last, h.wrap, h.blkSize]
  rfl

/-- Delivering a block that differs from the last one. -/
theorem Ready.deliver {s' : Download} (hclient : s'.client = s.client)
    (hreach : srv.Reaches c₀ s') (hm : 1 ≤ m) (hsent : m ≤ s'.sent) (hb : m % 2 ^ 16 ≠ b) :
    srv.Reaches c₀ (s'.storing srv m) := by
  obtain _ | m := m
  · omega
  have hstep : DownloadStep srv s' _ := .deliver s' (m + 1) ((first_le_one srv).trans hm) hsent
    (by rw [hclient]; exact h.run)
  rw [TftpServer.packet, tftpHandler_data (.inr (by rw [hclient]; exact h.port)), Nat.mod_mod,
    dataPacket_of_data (by rw [hclient]; exact h.state),
    receiveBlock_new (by rw [hclient]; exact h.state) (by rw [hclient]; exact h.reading)
      (by rw [hclient, h.last]; exact hb)] at hstep
  exact hreach.tail hstep

/-- What `NetBootFileXferSize` is at least after a block. -/
theorem Ready.xferSize (m : ℕ) : max size (computedEnd srv (nextWrap srv b w (m % 2 ^ 16)) m) ≤
    (afterBlock s.client (m % 2 ^ 16) (srv.blockData m)).netBootFileXferSize := by
  rw [afterBlock]
  rw [xferSizeAt, offsetAt, h.wrapOffsetAt_eq, h.blkSize]
  exact Nat.max_le.mpr ⟨h.size_le.trans (le_max_left _ _), le_max_right _ _⟩

/-- A block that arrives again is stored again, if another one has been stored since. -/
theorem Ready.again (hm : 1 ≤ m) (hmn : m ≤ n) (hlt : m < srv.blocks) (hb : m % 2 ^ 16 ≠ b) :
    ∃ s', Ready srv c₀ s' n (m % 2 ^ 16) (nextWrap srv b w (m % 2 ^ 16)) size := by
  exact ⟨s.storing srv m, h.deliver rfl h.reach hm (h.sent.symm ▸ hmn) hb,
    (netState_full h.blkSize hm hlt).trans h.run, h.state, h.reading, h.port, h.blkSize, rfl,
    h.wrapOffsetAt_eq _,
    h.sent, h.pos, fun k hk hle => (h.acked k hk hle).append _, h.addr,
      (le_max_left _ _).trans (h.xferSize m)⟩

/-- The acknowledgement of block `n` makes the server send the next one, which is stored. -/
theorem Ready.next_reach (hlt : n < srv.blocks) (hb : (n + 1) % 2 ^ 16 ≠ b) :
    srv.Reaches c₀ (Download.storing { s with sent := s.sent + 1 } srv (n + 1)) := by
  obtain ⟨p, hp, hport, hop, hblock⟩ := h.acked n h.pos le_rfl
  have hstep : DownloadStep srv s _ := .acknowledge s p hp hport hop (by rw [hblock, h.sent])
    (by rw [h.sent]; exact hlt)
  exact h.deliver rfl (h.reach.tail hstep) (Nat.le_add_left _ _) (by rw [h.sent]) hb

end

theorem acked_ackOf {c : Tftp} (l : List Udp) (hport : c.tftpRemotePort = srv.port)
    (hblock : c.tftpBlock = n % 2 ^ 16) : Acked srv (l ++ [ackOf c]) n := by
  refine ⟨ackOf c, by simp, hport, ntohs_htons 4 _, ?_⟩
  have hnum := ntohs_htons (c.tftpBlock % 2 ^ 16) []
  rw [append_nil, hblock, Nat.mod_mod, Nat.mod_mod] at hnum
  rw [ackOf, drop_htons, hblock, Nat.mod_mod, hnum]

/-- The next block, if it is not the last one. -/
theorem Ready.next (h : Ready srv c₀ s n b w size) (hlt : n + 1 < srv.blocks)
    (hb : (n + 1) % 2 ^ 16 ≠ b) :
    ∃ s', Ready srv c₀ s' (n + 1) ((n + 1) % 2 ^ 16) (nextWrap srv b w ((n + 1) % 2 ^ 16))
      (max size (computedEnd srv (nextWrap srv b w ((n + 1) % 2 ^ 16)) (n + 1))) ∧
      s'.client.mem = (afterBlock s.client ((n + 1) % 2 ^ 16) (srv.blockData (n + 1))).mem := by
  refine ⟨_, ⟨h.next_reach (by omega) hb, (netState_full h.blkSize (Nat.le_add_left 1 n) hlt).trans
    h.run, h.state, h.reading, h.port, h.blkSize, rfl, h.wrapOffsetAt_eq
    _, by rw [← h.sent]; rfl, Nat.le_add_left _ _, ?_, h.addr,
    h.xferSize (n + 1)⟩, rfl⟩
  intro k hk hle
  rcases lt_or_eq_of_le hle with hlt' | rfl
  · exact (h.acked k hk (by omega)).append _
  · exact acked_ackOf s.toServer h.port rfl

/-- The last block. -/
theorem Ready.finish (h : Ready srv c₀ s n b w size) (hn : n + 1 = srv.blocks)
    (hb : (n + 1) % 2 ^ 16 ≠ b) : ∃ s', srv.Reaches c₀ s' ∧ s'.client.netState = .success ∧
      max size (computedEnd srv (nextWrap srv b w ((n + 1) % 2 ^ 16)) (n + 1)) ≤
      s'.client.netBootFileXferSize := by
  refine ⟨_, h.next_reach (by omega) hb, if_pos ?_, h.xferSize (n + 1)⟩
  rw [h.blkSize, hn]
  exact length_lastBlock srv

/-- The wrap offset at block `n`, with `t` wraps too many. -/
def wrapAt (srv : TftpServer) (t n : ℕ) : ℕ := (n / 2 ^ 16 + t) * (srv.blkSize * 2 ^ 16)

theorem wrapAt_lt (hlen : srv.file.length < 2 ^ 63) (ht : t ≤ 1) (hn : n ≤ srv.blocks) :
    wrapAt srv t n + srv.blkSize * 2 ^ 16 < 2 ^ 64 := by
  have hlt := srv.blkSize_lt
  have hle : n * srv.blkSize ≤ srv.file.length + srv.blkSize := by
    cases n with
    | zero => omega
    | succ n =>
      have := sub_one_mul_le (show n + 1 ≤ blockCount srv.file srv.blkSize from hn)
      rw [Nat.add_sub_cancel] at this
      rw [Nat.succ_mul]
      omega
  have hmul : n / 2 ^ 16 * (srv.blkSize * 2 ^ 16) ≤ n * srv.blkSize := by
    rw [Nat.mul_comm srv.blkSize, ← Nat.mul_assoc]
    exact Nat.mul_le_mul_right _ (Nat.div_mul_le_self n (2 ^ 16))
  have hextra := Nat.mul_le_mul_right (srv.blkSize * 2 ^ 16) ht
  rw [wrapAt, Nat.add_mul]
  omega

theorem nextWrap_wrapAt (hlt : wrapAt srv t n + srv.blkSize * 2 ^ 16 < 2 ^ 64) :
    nextWrap srv (n % 2 ^ 16) (wrapAt srv t n) ((n + 1) % 2 ^ 16) = wrapAt srv t (n + 1) := by
  rw [nextWrap]
  split
  · have hdiv : (n + 1) / 2 ^ 16 = n / 2 ^ 16 + 1 := by omega
    rw [Nat.mod_eq_of_lt hlt, wrapAt, wrapAt, hdiv, show n / 2 ^ 16 + 1 + t = n / 2 ^ 16 + t +
      1 by omega, Nat.succ_mul]
  · have hdiv : (n + 1) / 2 ^ 16 = n / 2 ^ 16 := by omega
    rw [wrapAt, wrapAt, hdiv]

/-- Blocks that arrive in order, from block `n` to block `m`. -/
theorem Ready.run_to (h : Ready srv c₀ s n (n % 2 ^ 16) (wrapAt srv t n) size)
    (hlen : srv.file.length < 2 ^ 63) (ht : t ≤ 1) (hnm : n ≤ m) (hm : m < srv.blocks) :
    ∃ s', Ready srv c₀ s' m (m % 2 ^ 16) (wrapAt srv t m) size := by
  induction m, hnm using Nat.le_induction with
  | base => exact ⟨s, h⟩
  | succ m hnm ih =>
    obtain ⟨s', h'⟩ := ih (by omega)
    obtain ⟨s'', h'', -⟩ := h'.next hm (by omega)
    rw [nextWrap_wrapAt (wrapAt_lt hlen ht (by omega))] at h''
    exact ⟨s'', { h'' with size_le := (le_max_left _ _).trans h''.size_le }⟩

/-- The first block is stored at the load address. -/
theorem mem_firstBlock (c : Tftp) (src : ℕ) (data : List UInt8) {a : ℕ}
    (ha : c.loadAddr + data.length ≤ a) : (afterBlock (underWay c src) 1 data).mem a = c.mem a := by
  have hoff : offsetAt (underWay c src) 1 = 0 := by
    rw [offsetAt, show ((1 : ℕ) : ℤ) - 1 = ((0 : ℕ) : ℤ) from rfl, intMul_of_lt (by omega), Nat.zero_mul]
    rfl
  rw [afterBlock]
  rw [hoff]
  refine store_of_outside _ _ _ (.inr ?_)
  exact (Nat.add_le_add_right (Nat.mod_le _ _) _).trans ha

/-- The first block, when nothing but the block size is known of the client. -/
theorem ready_first (hreach : srv.Reaches c₀ s) (hrun : s.client.netState = .running)
    (hw : s.client.tftpWriting = false) (hs : s.client.tftpState = .sendRrq ∨ s.client.tftpState =
    .oack) (hlisten : Listens s.client srv.port)
    (hsize : s.client.tftpBlkSize = srv.blkSize) (hsent : s.sent = 1) (hblocks : 1 < srv.blocks)
    (haddr : s.client.loadAddr = c₀.loadAddr) (hmem : s.client.mem = c₀.mem) :
    ∃ s', Ready srv c₀ s' 1 (1 % 2 ^ 16) (wrapAt srv 0 1) 0 ∧
      ∀ a, c₀.loadAddr + srv.blkSize ≤ a → s'.client.mem a = c₀.mem a := by
  have hwrap : 0 = wrapAt srv 0 1 := by simp [wrapAt]
  have hstep : DownloadStep srv s _ := .deliver s 1 (first_le_one srv) hsent.ge hrun
  have hfull : (srv.blockData 1).length = srv.blkSize :=
    length_blockAt_of_lt srv.blkSize_pos le_rfl hblocks
  rw [TftpServer.packet, tftpHandler_data hlisten, Nat.mod_mod, Nat.mod_eq_of_lt (by decide),
    dataPacket_first hs hw] at hstep
  refine ⟨_, ⟨hreach.tail hstep, (netState_full hsize le_rfl hblocks).trans hrun, rfl, hw,
    rfl, hsize, rfl, hwrap, hsent, le_rfl, ?_, haddr, Nat.zero_le _⟩, fun a ha => ?_⟩
  · intro k hk hle
    obtain rfl : k = 1 := by omega
    exact acked_ackOf s.toServer rfl rfl
  · rw [← hmem]
    exact mem_firstBlock s.client srv.port _ (by rw [haddr, hfull]; exact ha)

/-- The download after the client has acknowledged the options. -/
def TftpServer.oacked (srv : TftpServer) (c₀ : Tftp) (p : List UInt8) : Download where
  client := { asked c₀ with
    tftpState := .oack
    tftpRemotePort := srv.port
    tftpBlkSize := oackBlkSize tftpBlockSize p }
  sent := 0
  toServer := [⟨c₀.tftpOurPort, wellKnownPort, request (asked c₀) 1⟩,
    ⟨c₀.tftpOurPort, srv.port, htons 4 ++ htons 0⟩]

/-- A server that sends more than one block gets the first one acknowledged. -/
theorem exists_ready (srv : TftpServer) (c₀ : Tftp) (hblocks : 1 < srv.blocks) :
    ∃ s, Ready srv c₀ s 1 (1 % 2 ^ 16) (wrapAt srv 0 1) 0 ∧ ∀ a, c₀.loadAddr + srv.blkSize ≤ a →
    s.client.mem a = c₀.mem a := by
  have hagreed := srv.agreed
  cases hoack : srv.oack with
  | none =>
    rw [hoack] at hagreed
    have hfirst : srv.first = 1 := by rw [TftpServer.first, hoack]; rfl
    refine ready_first .refl ?_ ?_ ?_ ?_ ?_ hfirst hblocks ?_ ?_
    all_goals rw [TftpServer.start]
    · rfl
    · rfl
    · exact .inl rfl
    · exact .inl (.inl rfl)
    · exact hagreed
    · rfl
    · rfl
  | some p =>
    rw [hoack] at hagreed
    have hfirst : srv.first = 0 := by rw [TftpServer.first, hoack]; rfl
    have hoacked : DownloadStep srv (srv.start c₀) _ :=
      .deliver (srv.start c₀) 0 hfirst.le (Nat.zero_le _) (by rw [TftpServer.start]; rfl)
    rw [TftpServer.packet, hoack, TftpServer.start, tftpHandler_oack (.inl (.inl rfl)), hfirst] at hoacked
    have hreach : DownloadStep srv (srv.start c₀) (srv.oacked c₀ p) := by
      rw [TftpServer.start, hfirst]
      exact hoacked
    have hacked : DownloadStep srv (srv.oacked c₀ p) _ :=
      .acknowledge _ ⟨c₀.tftpOurPort, srv.port, htons 4 ++ htons 0⟩ (by simp [TftpServer.oacked]) rfl
        (ntohs_htons 4 _) (show ntohs (htons 0) = 0 % 2 ^ 16 by decide) (Nat.one_pos.trans hblocks)
    exact ready_first ((ReflTransGen.single hreach).tail hacked) rfl rfl (.inr rfl)
      (.inr rfl) hagreed rfl hblocks rfl rfl

/-- The rest of the blocks, in order. -/
theorem Ready.run_finish (h : Ready srv c₀ s n (n % 2 ^ 16) (wrapAt srv t n) size)
    (hlen : srv.file.length < 2 ^ 63) (ht : t ≤ 1) (hn : n < srv.blocks) :
    ∃ s', srv.Reaches c₀ s' ∧ s'.client.netState = .success ∧
      max size (computedEnd srv (wrapAt srv t srv.blocks) srv.blocks) ≤ s'.client.netBootFileXferSize := by
  obtain ⟨m, hm⟩ : ∃ m, srv.blocks = m + 1 := ⟨srv.blocks - 1, by omega⟩
  obtain ⟨s', h'⟩ := h.run_to hlen ht (show n ≤ m by omega) (by omega)
  obtain ⟨s'', hreach, hdone, hsize⟩ := h'.finish hm.symm (by omega)
  rw [nextWrap_wrapAt (wrapAt_lt hlen ht (by omega))] at hsize
  exact ⟨s'', hreach, hdone, hm ▸ hsize⟩

/-- A product of `int`s is small or, as a `ulong`, close to the top. -/
theorem intMul_cases (a b : ℤ) : intMul a b < 2 ^ 31 ∨ 2 ^ 64 - 2 ^ 31 ≤ intMul a b ∧
    intMul a b < 2 ^ 64 := by
  have hlo := Int.le_bmod (x := a * b) (m := 2 ^ 32) (by decide)
  have hhi := Int.bmod_lt (x := a * b) (m := 2 ^ 32) (by decide)
  rw [intMul]
  omega

/-- As long as the wrap offset is small, no block is stored at offset 2^34. -/
theorem Ready.mem_afterBlock (h : Ready srv c₀ s n b w size) (haddr : c₀.loadAddr = 0)
    (hw : nextWrap srv b w (m % 2 ^ 16) < 2 ^ 33) :
    (afterBlock s.client (m % 2 ^ 16) (srv.blockData m)).mem (2 ^ 34) = s.client.mem (2 ^ 34) := by
  have hlt := srv.blkSize_lt
  have hlength : (srv.blockData m).length ≤ srv.blkSize := length_take_le _ _
  have hint := intMul_cases (((m % 2 ^ 16 : ℕ) : ℤ) - 1) srv.blkSize
  rw [afterBlock]
  rw [offsetAt, h.wrapOffsetAt_eq, h.blkSize, h.addr]
  exact store_of_outside _ _ _ (by omega)

theorem wrapAt_zero_le (hn : n ≤ 2 ^ 16 + 1) : wrapAt srv 0 n < 2 ^ 32 := by
  have hlt := srv.blkSize_lt
  have hle : wrapAt srv 0 n ≤ 1 * (srv.blkSize * 2 ^ 16) := Nat.mul_le_mul_right _ (by omega)
  omega

/-- In the first run through the block numbers nothing is stored at offset 2^34. -/
theorem ready_near (srv : TftpServer) (c₀ : Tftp) (haddr : c₀.loadAddr = 0) (hn : 1 ≤ n)
    (hle : n ≤ 2 ^ 16 + 1) (hlt : n < srv.blocks) :
    ∃ s, Ready srv c₀ s n (n % 2 ^ 16) (wrapAt srv 0 n) 0 ∧ s.client.mem (2 ^ 34) = c₀.mem (2 ^ 34) := by
  have hsize := srv.blkSize_lt
  induction n, hn using Nat.le_induction with
  | base =>
    obtain ⟨s, h, hmem⟩ := exists_ready srv c₀ hlt
    exact ⟨s, h, hmem _ (by omega)⟩
  | succ n hn ih =>
    obtain ⟨s, h, hmem⟩ := ih (by omega) (by omega)
    obtain ⟨s', h', hmem'⟩ := h.next hlt (by omega)
    have hsmall : wrapAt srv 0 n < 2 ^ 32 := wrapAt_zero_le (by omega)
    have hsmall' : wrapAt srv 0 (n + 1) < 2 ^ 32 := wrapAt_zero_le hle
    rw [nextWrap_wrapAt (by omega)] at h'
    refine ⟨s', { h' with size_le := Nat.zero_le _ }, ?_⟩
    rw [hmem', h.mem_afterBlock haddr (by rw [nextWrap_wrapAt (by omega)]; omega), hmem]

/-- Acknowledgements from the first run through the block numbers that arrive again let the server
go on to its last block. -/
theorem Ready.skip (h : Ready srv c₀ s n b w size) (hn : 2 ^ 16 ≤ n) (hnm : n ≤ m)
    (hm : m ≤ srv.blocks) : srv.Reaches c₀ { s with sent := m } := by
  induction m, hnm using Nat.le_induction with
  | base =>
    rw [← h.sent]
    exact h.reach
  | succ m hnm ih =>
    obtain ⟨k, hk, hkn, hmod⟩ : ∃ k, 1 ≤ k ∧ k ≤ n ∧ k % 2 ^ 16 = m % 2 ^ 16 := by
      rcases Nat.eq_zero_or_pos (m % 2 ^ 16) with hz | hpos
      · exact ⟨2 ^ 16, by omega, hn, by omega⟩
      · exact ⟨m % 2 ^ 16, hpos, by omega, Nat.mod_mod _ _⟩
    obtain ⟨p, hp, hport, hop, hblock⟩ := h.acked k hk hkn
    exact (ih (by omega)).tail (.acknowledge { s with sent := m } p hp hport hop (hblock.trans hmod) hm)

/-- After block 65536 the two last blocks arrive again, and the second of them is taken for the
beginning of another run through the block numbers. -/
theorem ready_shifted (srv : TftpServer) (c₀ : Tftp) (hlen : srv.file.length < 2 ^ 63)
    (hblocks : 2 ^ 16 < srv.blocks) : ∃ s, Ready srv c₀ s (2 ^ 16) (2 ^ 16 % 2 ^ 16)
    (wrapAt srv 1 (2 ^ 16)) 0 := by
  obtain ⟨s₁, h₁, -⟩ := exists_ready srv c₀ (by omega)
  obtain ⟨s₂, h₂⟩ := h₁.run_to hlen (Nat.zero_le 1) (show 1 ≤ 2 ^ 16 by decide) hblocks
  obtain ⟨s₃, h₃⟩ := h₂.again (show 1 ≤ 2 ^ 16 - 1 by decide) (by decide) (by omega) (by decide)
  obtain ⟨s₄, h₄⟩ := h₃.again (show 1 ≤ 2 ^ 16 by decide) le_rfl hblocks (by decide)
  have hback : nextWrap srv (2 ^ 16 % 2 ^ 16) (wrapAt srv 0 (2 ^ 16)) ((2 ^ 16 - 1) % 2 ^ 16) =
      wrapAt srv 0 (2 ^ 16) := if_neg (by decide)
  have hagain : nextWrap srv ((2 ^ 16 - 1) % 2 ^ 16) (wrapAt srv 0 (2 ^ 16)) (2 ^ 16 % 2 ^ 16) =
      wrapAt srv 1 (2 ^ 16) := by
    rw [nextWrap, if_pos (by decide), Nat.mod_eq_of_lt (wrapAt_lt hlen (Nat.zero_le 1) hblocks.le),
      wrapAt, wrapAt, ← Nat.succ_mul]
  rw [hback, hagain] at h₄
  exact ⟨s₄, h₄⟩

/-- A client that loads a long file to address 0 may end with success and never store the byte at
2^34. -/
theorem exists_untouched (srv : TftpServer) (c₀ : Tftp) (haddr : c₀.loadAddr = 0)
    (hblocks : 2 ^ 16 + 2 < srv.blocks) : ∃ s, srv.Reaches c₀ s ∧ s.client.netState = .success ∧
    s.client.mem (2 ^ 34) = c₀.mem (2 ^ 34) := by
  have hpos : 1 ≤ srv.blocks := Nat.le_add_left _ _
  -- the last block must not look like the one before it
  obtain ⟨n, hn, hle, hne⟩ : ∃ n, 2 ^ 16 ≤ n ∧ n ≤ 2 ^ 16 + 1 ∧ srv.blocks % 2 ^ 16 ≠ n % 2 ^ 16 := by
    by_cases hz : srv.blocks % 2 ^ 16 = 0
    · exact ⟨2 ^ 16 + 1, by omega, le_rfl, by omega⟩
    · exact ⟨2 ^ 16, le_rfl, by omega, by omega⟩
  have hwrap : nextWrap srv (n % 2 ^ 16) (wrapAt srv 0 n) (srv.blocks % 2 ^ 16) < 2 ^ 33 := by
    have hsmall : wrapAt srv 0 n < 2 ^ 32 := wrapAt_zero_le hle
    have hsize := srv.blkSize_lt
    rw [nextWrap]
    split <;> omega
  obtain ⟨s, hs, hmem⟩ := ready_near srv c₀ haddr (by omega) hle (by omega)
  have hskip := hs.skip hn (by omega) le_rfl
  refine ⟨_, hs.deliver (show ({ s with sent := srv.blocks } : Download).client = s.client from rfl)
    hskip hpos le_rfl hne, if_pos ?_, (hs.mem_afterBlock haddr hwrap).trans hmem⟩
  rw [hs.blkSize]
  exact length_lastBlock srv

end Runs

/-! ### Where the blocks end -/

section Ends

variable {srv : TftpServer} {k n : ℕ}

/-- Without an overflow, `t` wraps too many move a block by `t` runs of block numbers. -/
theorem intMul_wrapAt (hint : (2 ^ 16 - 2) * srv.blkSize < 2 ^ 31)
    (hlen : srv.file.length < 2 ^ 63) (ht : t ≤ 1) (hn : 1 ≤ n) (hle : n ≤ srv.blocks) :
    (intMul (((n % 2 ^ 16 : ℕ) : ℤ) - 1) srv.blkSize + wrapAt srv t n) % 2 ^ 64 =
      (n - 1) * srv.blkSize + t * (srv.blkSize * 2 ^ 16) := by
  have hpos := srv.blkSize_pos
  have hlt := srv.blkSize_lt
  have hwrap := wrapAt_lt hlen ht hle
  have hmul := mul_eq_sub_one_mul srv.blkSize hn
  have hrun : n / 2 ^ 16 * (srv.blkSize * 2 ^ 16) + n % 2 ^ 16 * srv.blkSize = n * srv.blkSize := by
    rw [Nat.mul_comm srv.blkSize, ← Nat.mul_assoc, ← Nat.add_mul, Nat.div_add_mod']
  rw [wrapAt, Nat.add_mul] at hwrap ⊢
  by_cases hz : n % 2 ^ 16 = 0
  · rw [hz] at hrun
    rw [hz, show ((0 : ℕ) : ℤ) - 1 = -1 from rfl, intMul_neg_one hpos hlt]
    omega
  · have hb : ((n % 2 ^ 16 : ℕ) : ℤ) - 1 = ((n % 2 ^ 16 - 1 : ℕ) : ℤ) := by omega
    have hbound := Nat.mul_le_mul_right srv.blkSize (show n % 2 ^ 16 - 1 ≤ 2 ^ 16 - 2 by omega)
    have hsub := mul_eq_sub_one_mul srv.blkSize (show 1 ≤ n % 2 ^ 16 by omega)
    rw [hb, intMul_of_lt (by omega)]
    omega

/-- Where the last block ends if the wrap is counted once too often. -/
theorem computedEnd_shifted (hint : (2 ^ 16 - 2) * srv.blkSize < 2 ^ 31)
    (hlen : srv.file.length < 2 ^ 63) : computedEnd srv (wrapAt srv 1 srv.blocks) srv.blocks =
    srv.file.length + srv.blkSize * 2 ^ 16 := by
  have hblocks : 1 ≤ srv.blocks := Nat.le_add_left _ _
  have hmul := mul_eq_sub_one_mul srv.blkSize hblocks
  have hend : (srv.blocks - 1) * srv.blkSize + (srv.blockData srv.blocks).length = min _ _ :=
    end_of_blockAt hblocks le_rfl
  have hshort := length_lastBlock srv
  rw [computedEnd, intMul_wrapAt hint hlen le_rfl hblocks le_rfl]
  omega

/-- Where a block ends whose offset overflows. -/
theorem le_computedEnd_overflow (hk : k < 2 ^ 16 - 1)
    (hover : 2 ^ 31 ≤ k * srv.blkSize) : 2 ^ 63 ≤ computedEnd srv (wrapAt srv 0 (k + 1)) (k + 1) := by
  have hlt := srv.blkSize_lt
  have hmul : (k + 1) * srv.blkSize < 2 ^ 32 :=
    lt_of_le_of_lt (Nat.mul_le_mul (show k + 1 ≤ 2 ^ 16 - 1 by omega) hlt.le) (by decide)
  rw [Nat.succ_mul] at hmul
  have hwrap : wrapAt srv 0 (k + 1) = 0 := by
    rw [wrapAt, Nat.div_eq_of_lt (by omega), Nat.zero_mul]
  have hlength : (srv.blockData (k + 1)).length ≤ srv.blkSize := length_take_le _ _
  have hcast : (((k + 1) % 2 ^ 16 : ℕ) : ℤ) - 1 = (k : ℕ) := by omega
  rw [computedEnd, hcast, intMul_of_ge hover (by omega)]
  omega

end Ends

/-! ### The law -/

section Law

variable {srv : TftpServer}

/-- A file of more than 2^34 bytes. -/
theorem not_downloads_of_long (hlong : 2 ^ 34 < srv.file.length) (hlen : srv.file.length ≤ 2 ^ 64) :
    ¬ Downloads srv := by
  intro h
  have hblocks : 2 ^ 16 + 2 < srv.blocks := by
    have hdiv := (Nat.le_div_iff_mul_le srv.blkSize_pos).mpr
      ((Nat.mul_le_mul_left (2 ^ 18) srv.blkSize_lt.le).trans hlong.le)
    rw [TftpServer.blocks, blockCount]
    omega
  obtain ⟨s, hreach, hdone, hmem⟩ := exists_untouched srv (idleClient fun _ => srv.file[2 ^ 34] + 1)
      rfl hblocks
  have hdelivered := h (idleClient _) (by rw [idleClient, zero_add]; exact hlen) s hreach hdone
  have hfile := contains_iff.mp hdelivered.file (2 ^ 34) hlong
  rw [idleClient, zero_add, hmem, idleClient] at hfile
  simp at hfile

variable (hlen : srv.file.length < 2 ^ 63)
include hlen

/-- A run that reports more than the length of the file refutes the law. -/
theorem not_downloads_of_size {s : Download} (hreach : srv.Reaches (idleClient fun _ => 0) s)
    (hdone : s.client.netState = .success) (hsize : srv.file.length < s.client.netBootFileXferSize) :
    ¬ Downloads srv := by
  intro h
  have hdelivered := h (idleClient _) (by rw [idleClient, zero_add]; omega) s hreach hdone
  exact absurd hdelivered.size hsize.ne'

/-- More than 65536 blocks. -/
theorem not_downloads_of_wrap
    (hint : (2 ^ 16 - 2) * srv.blkSize < 2 ^ 31) (hblocks : 2 ^ 16 < srv.blocks) : ¬ Downloads srv := by
  obtain ⟨s, h⟩ := ready_shifted srv (idleClient fun _ => 0) hlen hblocks
  obtain ⟨s', hreach, hdone, hsize⟩ := h.run_finish hlen le_rfl hblocks
  have hpos := srv.blkSize_pos
  rw [computedEnd_shifted hint hlen] at hsize
  exact not_downloads_of_size hlen hreach hdone (by omega)

/-- A block whose offset does not fit into an `int`. -/
theorem not_downloads_of_overflow {k : ℕ} (hk : k < 2 ^ 16 - 1)
    (hle : k * srv.blkSize ≤ srv.file.length) (hover : 2 ^ 31 ≤ k * srv.blkSize) : ¬ Downloads srv := by
  have hk1 : 1 ≤ k := by
    by_contra hz
    rw [show k = 0 by omega] at hover
    omega
  have hblocks : k + 1 ≤ srv.blocks := Nat.succ_le_succ ((Nat.le_div_iff_mul_le srv.blkSize_pos).mpr hle)
  have hend := le_computedEnd_overflow hk hover
  obtain ⟨s₁, h₁, -⟩ := exists_ready srv (idleClient fun _ => 0) (by omega)
  rcases lt_or_eq_of_le hblocks with hmore | hlast
  · -- the size that block k + 1 reports stays to the end
    obtain ⟨s₂, h₂⟩ := h₁.run_to hlen (Nat.zero_le 1) hk1 (by omega)
    obtain ⟨s₃, h₃, -⟩ := h₂.next hmore (by omega)
    rw [nextWrap_wrapAt (wrapAt_lt hlen (Nat.zero_le 1) (by omega))] at h₃
    obtain ⟨s₄, hreach, hdone, hsize⟩ := h₃.run_finish hlen (Nat.zero_le 1) hmore
    exact not_downloads_of_size hlen hreach hdone (by omega)
  · obtain ⟨s₂, hreach, hdone, hsize⟩ := h₁.run_finish hlen (Nat.zero_le 1) (by omega)
    rw [← hlast] at hsize
    exact not_downloads_of_size hlen hreach hdone (by omega)

omit hlen

/-- The memory that a finished download leaves is right for every behaviour of the network if and
only if block numbers do not repeat and block offsets fit into an `int`. -/
theorem downloads_iff_fitsSequence (srv : TftpServer) (hmem : srv.file.length ≤ 2 ^ 64) :
    Downloads srv ↔ FitsSequence srv := by
  refine ⟨fun h => ?_, fun h => downloads_of_fitsSequence h ?_⟩
  rotate_left
  · have hfit := h.1
    have hsize := srv.blkSize_lt
    omega
  have hlen : srv.file.length < 2 ^ 63 := by
    by_contra hlong
    exact not_downloads_of_long (by omega) hmem h
  have hint : ∀ k < 2 ^ 16 - 1, k * srv.blkSize ≤ srv.file.length → k * srv.blkSize < 2 ^ 31 := by
    intro k hk hle
    by_contra hover
    exact not_downloads_of_overflow hlen hk hle (by omega) h
  refine ⟨?_, hint⟩
  by_contra hlong
  have hblocks : 2 ^ 16 < srv.blocks :=
    Nat.lt_succ_of_le ((Nat.le_div_iff_mul_le srv.blkSize_pos).mpr (not_lt.mp hlong))
  exact not_downloads_of_wrap hlen (hint _ (by decide) (by omega)) hblocks h

/-- A server that acknowledges no options and sends 600 bytes. -/
def smallServer : TftpServer := ⟨⟨2000, 512, none, tftpBlockSize_pos, tftpBlockSize_lt, rfl⟩,
    List.replicate 600 7⟩

theorem downloads_iff_fitsSequence_small : smallServer.file.length ≤ 2 ^ 64 ∧
    Downloads smallServer := by
  have hlen : smallServer.file.length = 600 := length_replicate
  refine ⟨by omega, (downloads_iff_fitsSequence smallServer (by omega)).mpr ⟨?_, ?_⟩⟩
  · rw [hlen]
    decide
  · intro k hk hle
    omega

/-- In a running download every acknowledgement is of a block in memory, and nothing outside the
file was written. -/
def AcksStored (srv : TftpServer) : Prop :=
  ∀ c₀ : Tftp, c₀.loadAddr + srv.file.length ≤ 2 ^ 64 → ∀ s, srv.Reaches c₀ s →
    s.client.netState = .running → (∀ p ∈ s.toServer, ntohs p.data = 4 →
      ∀ k, ntohs (p.data.drop 2) = k + 1 → Contains s.client.mem (c₀.loadAddr + k * srv.blkSize)
      (srv.blockData (k + 1))) ∧
    ∀ a, a < c₀.loadAddr ∨ c₀.loadAddr + srv.file.length ≤ a → s.client.mem a = c₀.mem a

theorem acksStored_of_fitsSequence (hfit : FitsSequence srv) : AcksStored srv := by
  intro c₀ hmem s hreach hrun
  have hlen : srv.file.length < 2 ^ 64 := hfit.1.trans (by have := srv.blkSize_lt; omega)
  have hinv : DownloadInv srv c₀ s := by
    clear hrun
    induction hreach with
    | refl => exact downloadInv_start srv c₀
    | tail _ hstep ih => exact ih.step hfit hmem hlen hstep
  obtain ⟨got, h⟩ := hinv.running hrun
  refine ⟨fun p hp hop k hk => ?_, h.stored.outside⟩
  have hgot := (h.acks p hp hop).resolve_left (by omega)
  rw [hk] at hgot
  exact h.stored.block _ hgot

theorem acksStored_small : AcksStored smallServer := by
  have hlen : smallServer.file.length = 600 := length_replicate
  refine acksStored_of_fitsSequence ⟨?_, fun k hk hle => by omega⟩
  rw [hlen]
  decide

/-- A server that acknowledges blocks of one byte and sends 65536 of them. -/
def wrappingServer : TftpServer :=
  ⟨⟨2000, 1, some (cstr "blksize" ++ cstr "1"), by decide, by decide, by decide⟩,
    List.replicate (2 ^ 16) 7⟩

theorem not_downloads_wrapping : ¬ Downloads wrappingServer := by
  have hlen : wrappingServer.file.length = 2 ^ 16 := length_replicate
  refine not_downloads_of_wrap (by omega) (by decide) ?_
  rw [TftpServer.blocks, blockCount, hlen]
  decide

end Law

end UBoot.Net
