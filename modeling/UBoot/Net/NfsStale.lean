import UBoot.Common.Run
import UBoot.Net.Nfs

/-!
# Late replies to the NFS client

A server that answers every request, over a network that delays, duplicates and loses packets: any
answer to a request that was sent may arrive at any time. A reply to an older request is dropped in
every state but one. While the file is read the code for a dropped reply is taken for an error of
the server, and the transfer is given up.
-/

namespace UBoot.Net

open UBoot.Common List

/-! ### The server -/

/-- A server with its ports, the directories that can be mounted, and the files in them; directories
and files are known by their handles. -/
structure NfsServer where
  port : NfsProg → ℕ
  port_lt : ∀ prog, port prog < 2 ^ 16
  mounts : CStr → Option (List UInt8)
  lookup : List UInt8 → CStr → Option (List UInt8)
  file : List UInt8 → Option (List UInt8)

/-- The reply has a handle, or an error. -/
def NfsPacket.Gives (p : NfsPacket) : Option (List UInt8) → Prop
  | none => 28 ≤ p.len ∧ replyData p.buf 0 ≠ 0
  | some fh => 60 ≤ p.len ∧ replyData p.buf 0 = 0 ∧ load p.buf 28 32 = fh

/-- The reply has some bytes of the file, not more than asked for, and none only at its end. -/
structure NfsPacket.Reads (p : NfsPacket) (file : List UInt8) (offset readlen : ℕ) : Prop where
  ok : replyData p.buf 0 = 0
  le : replyData p.buf 18 ≤ readlen
  bytes : load p.buf 100 (replyData p.buf 18) = (file.drop offset).take (replyData p.buf 18)
  inside : offset + replyData p.buf 18 ≤ max offset file.length
  eof : replyData p.buf 18 = 0 ↔ file.length ≤ offset

/-- The answer to a request. There are no symbolic links on this server, so that a transfer never
comes to `STATE_READLINK_REQ`. -/
def NfsServer.Answers (srv : NfsServer) (p : NfsPacket) : NfsCall → Prop
  | .getport prog => 28 ≤ p.len ∧ replyData p.buf 0 = srv.port prog
  | .mount path => p.Gives (srv.mounts path)
  | .umountall => True
  | .lookup dirfh fname => p.Gives (srv.lookup dirfh fname)
  | .read filefh offset readlen =>
    match srv.file filefh with
    | none => replyData p.buf 0 ≠ 0
    | some file => p.Reads file offset readlen
  | .readlink _ => replyData p.buf 0 ≠ 0

/-- The packet is the answer to a request with a number. -/
structure IsAnswer (srv : NfsServer) (p : NfsPacket) (c : ℕ × NfsCall) : Prop where
  id_eq : p.id = c.1
  len : 24 ≤ p.len
  accepted : rpcRejected p.buf = false
  answers : srv.Answers p c.2

/-- What the network may deliver: the answer to some request sent before. -/
def Arrives (srv : NfsServer) (s : Nfs) : NfsEvent → Prop
  | .packet dest p => dest = s.nfsOurPort → ∃ c ∈ s.sent, IsAnswer srv p c
  | .timeout => True

/-- A reply to an older request. -/
def Stale (s : Nfs) : NfsEvent → Prop
  | .packet dest p => dest = s.nfsOurPort ∧ p.id < s.rpcId
  | .timeout => False

/-- Neither the state nor the offset, the data or the outcome have changed. -/
structure Harmless (s s' : Nfs) : Prop where
  state : s'.nfsState = s.nfsState
  offset : s'.nfsOffset = s.nfsOffset
  mem : s'.mem = s.mem
  xferSize : s'.netBootFileXferSize = s.netBootFileXferSize
  downloadState : s'.nfsDownloadState = s.nfsDownloadState
  netState : s'.netState = s.netState

variable {n : ℕ} {rpc : ℕ → UInt8} {e : NfsEvent}

/-! ### Late replies -/

section Late

variable {s : Nfs} {p : NfsPacket} {dest : ℕ}

theorem NfsPacket.load_rpc {pos : ℕ} (h : pos + n ≤ p.len) : load p.rpc pos n = load p.buf pos n :=
  map_congr_left fun i hi => if_pos (by have := mem_range.mp hi; omega)

theorem NfsPacket.ntohl32_rpc {pos : ℕ} (h : pos + 4 ≤ p.len) :
    ntohl32 p.rpc pos = ntohl32 p.buf pos := by
  rw [ntohl32, load_rpc h, ntohl32]

theorem rpcReply_stale (h : ntohl32 rpc 0 < s.rpcId) (bad : Bool) (use : Nfs) :
    rpcReply s rpc bad use = (s, -nfsRpcDrop) := by
  rw [rpcReply, if_neg (by omega), if_pos h]

/-- Outside the read state a late reply is dropped. -/
theorem nfsHandler_stale (hstate : s.nfsState ≠ .read) (hlen : 4 ≤ p.len) (h : p.id < s.rpcId) :
    nfsHandler s dest p = s := by
  have hrpc : ntohl32 p.rpc 0 < s.rpcId := by
    rw [NfsPacket.ntohl32_rpc hlen]
    exact h
  rw [nfsHandler]
  split
  · rfl
  split
  · rw [rpcLookupReply, rpcReply_stale hrpc]
    rfl
  · rw [rpcLookupReply, rpcReply_stale hrpc]
    rfl
  · rw [nfsMountReply, rpcReply_stale hrpc]
    rfl
  · rw [nfsUmountallReply, rpcReply_stale hrpc]
    rfl
  · rw [nfsLookupReply, rpcReply_stale hrpc]
    rfl
  · rw [nfsReadlinkReply, rpcReply_stale hrpc]
    rfl
  · next hread => exact absurd hread hstate

/-- In the read state a late reply ends the transfer. -/
theorem nfsHandler_stale_read (hstate : s.nfsState = .read) (h : p.id < s.rpcId) :
    nfsHandler s s.nfsOurPort p = s.goTo .umount := by
  have hreply : nfsReadReply s p = (s, -nfsRpcDrop) := by
    have hid : ntohl32 p.buf 0 < s.rpcId := h
    rw [nfsReadReply, if_neg (by omega), if_pos hid]
  rw [nfsHandler, if_neg (not_not.mpr rfl), hstate]
  rw [hreply]
  rfl

theorem goTo_nfsState (s : Nfs) (state : NfsState) : (s.goTo state).nfsState = state := by
  rw [Nfs.goTo, nfsSend]
  split <;> rfl

/-- The states in which a late reply does harm. -/
def Exposed (s : Nfs) : Prop := s.netState = .running ∧ s.nfsState = .read

/-- A late reply changes nothing, except in the read state. -/
theorem harmless_iff {srv : NfsServer} (harr : Arrives srv s e) (hstale : Stale s e) :
    Harmless s (s.step e) ↔ ¬ Exposed s := by
  cases e with
  | timeout => exact hstale.elim
  | packet dest p =>
    obtain ⟨rfl, hid⟩ := hstale
    obtain ⟨c, -, hans⟩ := harr rfl
    rw [Nfs.step]
    split
    · next hrun =>
      by_cases hread : s.nfsState = .read
      · refine iff_of_false (fun h => ?_) (not_not.mpr ⟨hrun, hread⟩)
        have hstate := h.state
        rw [nfsHandler_stale_read hread hid, goTo_nfsState, hread] at hstate
        cases hstate
      · refine iff_of_true ?_ fun h => hread h.2
        have hlen := hans.len
        rw [nfsHandler_stale hread (by omega) hid]
        exact ⟨rfl, rfl, rfl, rfl, rfl, rfl⟩
    · next hrun => exact iff_of_true ⟨rfl, rfl, rfl, rfl, rfl, rfl⟩ fun h => hrun h.1

end Late

/-! ### The transfer -/

section Transfer

/-- The file that is asked for, a regular one: the handles on the way to it and its bytes. -/
structure Remote (srv : NfsServer) where
  path : CStr
  name : CStr
  dirfh : List UInt8
  filefh : List UInt8
  file : List UInt8
  mounts : srv.mounts path = some dirfh
  lookup : srv.lookup dirfh name = some filefh
  file_eq : srv.file filefh = some file
  length_lt : file.length < 2 ^ 32

variable {srv : NfsServer} (r : Remote srv)

/-- How far the transfer has come in each state. -/
def Remote.Reached (s : Nfs) : Prop :=
  match s.nfsState with
  | .rpcLookupMount => True
  | .rpcLookupNfs => s.nfsSrvMountPort = srv.port .mount
  | .mount => s.nfsSrvMountPort = srv.port .mount
  | .lookup => s.nfsSrvMountPort = srv.port .mount ∧ s.fsMounted = true ∧ s.dirfh = r.dirfh
  | .read =>
    s.nfsSrvMountPort = srv.port .mount ∧ s.fsMounted = true ∧ s.filefh = r.filefh ∧
      s.nfsLen = nfsReadSize ∧ s.nfsOffset ≤ r.file.length ∧
      Contains s.mem s.loadAddr (r.file.take s.nfsOffset)
  | .umount =>
    s.nfsSrvMountPort = srv.port .mount ∧ s.fsMounted = true ∧ s.nfsDownloadState = .success ∧
      Contains s.mem s.loadAddr r.file
  | .readlink => False

/-- The file is in memory, and nothing else was written. -/
structure Remote.Stored (s₀ s : Nfs) : Prop where
  success : s.netState = .success
  file : Contains s.mem s₀.loadAddr r.file
  outside : ∀ a, a < s₀.loadAddr ∨ s₀.loadAddr + r.file.length ≤ a → s.mem a = s₀.mem a

/-- The transfer is under way. -/
structure Remote.Underway (s₀ s : Nfs) : Prop where
  running : s.netState = .running
  names : s.nfsPath = r.path ∧ s.nfsFilename = r.name
  loadAddr : s.loadAddr = s₀.loadAddr
  outside : ∀ a, a < s₀.loadAddr ∨ s₀.loadAddr + r.file.length ≤ a → s.mem a = s₀.mem a
  reached : r.Reached s

/-- The replies still to come, at most. -/
def Remote.remaining (s : Nfs) : ℕ :=
  if s.netState = .running then
    match s.nfsState with
    | .rpcLookupMount => r.file.length + 6
    | .rpcLookupNfs => r.file.length + 5
    | .mount => r.file.length + 4
    | .lookup => r.file.length + 3
    | .read => r.file.length - s.nfsOffset + 2
    | .umount => 1
    | .readlink => 0
  else 0

/-- The requests sent so far, of which the last one belongs to the state. -/
structure Logged (s : Nfs) : Prop where
  le : ∀ c ∈ s.sent, c.1 ≤ s.rpcId
  current : ∀ c ∈ s.sent, c.1 = s.rpcId → c.2 = s.call

variable {r} {s₀ s : Nfs} {p : NfsPacket}

/-- A request is sent unless there is nothing to unmount. -/
theorem Remote.Underway.nfsSend_eq (h : r.Underway s₀ s) : nfsSend s = rpcReq s s.call := by
  refine if_neg ?_
  rintro ⟨hstate, hnone⟩
  have hreached := h.reached
  rw [Remote.Reached, hstate] at hreached
  have hport := srv.port_lt .mount
  rcases hnone with hnone | hnone
  · omega
  · rw [hreached.2.1] at hnone
    cases hnone

theorem logged_rpcReq (hle : ∀ c ∈ s.sent, c.1 ≤ s.rpcId) (hid : s.rpcId + 1 < 2 ^ 32) :
    (rpcReq s s.call).rpcId = s.rpcId + 1 ∧ Logged (rpcReq s s.call) := by
  have hrpc : (rpcReq s s.call).rpcId = s.rpcId + 1 := Nat.mod_eq_of_lt (by omega)
  have hcase : ∀ c ∈ (rpcReq s s.call).sent, c ∈ s.sent ∨ c = (s.rpcId + 1, s.call) := by
    intro c hc
    rcases mem_append.mp hc with hc | hc
    · exact .inl hc
    · right
      rw [mem_singleton.mp hc]
      have h64 : (s.rpcId + 1) % 2 ^ 64 % 2 ^ 32 = s.rpcId + 1 := by omega
      rw [h64]
  refine ⟨hrpc, ⟨fun c hc => ?_, fun c hc heq => ?_⟩⟩
  · rw [hrpc]
    rcases hcase c hc with hc | rfl
    · exact (hle c hc).trans (Nat.le_succ _)
    · exact le_rfl
  · rcases hcase c hc with hc | rfl
    · have := hle c hc
      omega
    · rfl

theorem rpcReply_fresh (h : ntohl32 rpc 0 = s.rpcId) {bad : Bool} (hbad : bad = false) (use : Nfs) :
    rpcReply s rpc bad use = (use, 0) := by
  rw [rpcReply, if_neg (by omega), if_neg (by omega), hbad]
  rfl

theorem zero_ne_drop : (0 : ℤ) ≠ -nfsRpcDrop := by decide

theorem zero_ne_err : (0 : ℤ) ≠ -nfsRpcErr := by decide

/-- No request has been sent. -/
structure SameLog (s s' : Nfs) : Prop where
  rpcId : s'.rpcId = s.rpcId
  sent : s'.sent = s.sent

/-- The client goes on with the next request. -/
def Remote.GoesOn (r : Remote srv) (s₀ s next : Nfs) : Prop :=
  ∃ s', next = nfsSend s' ∧ r.Underway s₀ s' ∧ SameLog s s' ∧
    s'.nfsTimeoutCount = s.nfsTimeoutCount ∧ r.remaining s' < r.remaining s

/-- The header of a reply to the last request. -/
structure Current (s : Nfs) (p : NfsPacket) : Prop where
  id_eq : p.id = s.rpcId
  len : 24 ≤ p.len
  accepted : rpcRejected p.buf = false

theorem Current.rpc_id (h : Current s p) : ntohl32 p.rpc 0 = s.rpcId := by
  have hlen := h.len
  rw [NfsPacket.ntohl32_rpc (by omega)]
  exact h.id_eq

theorem Current.rpc_accepted (h : Current s p) : rpcRejected p.rpc = false := by
  have hlen := h.len
  rw [rpcRejected, NfsPacket.ntohl32_rpc (by omega), NfsPacket.ntohl32_rpc (by omega),
    NfsPacket.ntohl32_rpc (by omega)]
  exact h.accepted

theorem replyData_rpc (h : 28 ≤ p.len) : replyData p.rpc 0 = replyData p.buf 0 :=
  NfsPacket.ntohl32_rpc h

/-- A reply that carries the status 0 is used. -/
theorem Current.good (h : Current s p) (hlen : 28 ≤ p.len) (hok : replyData p.buf 0 = 0) :
    (rpcRejected p.rpc || decide (replyData p.rpc 0 ≠ 0)) = false := by
  rw [h.rpc_accepted, replyData_rpc hlen, hok]
  rfl

/-- The next bytes are stored behind those that are there. -/
theorem contains_storeBlock {file : List UInt8}
    (hfile : Contains s.mem s.loadAddr (file.take s.nfsOffset))
    (hle : s.nfsOffset + n ≤ file.length) (hbytes : load p.buf 100 n = (file.drop s.nfsOffset).take n) :
    Contains (s.storeBlock p.buf 100 s.nfsOffset n).mem s.loadAddr (file.take (s.nfsOffset + n)) := by
  have hlen : (file.take s.nfsOffset).length = s.nfsOffset := length_take_of_le (by omega)
  rw [take_add, contains_append, hlen]
  constructor
  · refine hfile.congr fun i _ hi => store_of_outside _ _ _ (.inl ?_)
    omega
  · rw [← hbytes]
    exact contains_store _ _ _

section Fresh

variable (h : r.Underway s₀ s) (hp : Current s p)
include h hp

theorem Remote.Underway.fresh_rpcLookupMount (hstate : s.nfsState = .rpcLookupMount)
    (hans : srv.Answers p s.call) : r.GoesOn s₀ s (nfsHandler s s.nfsOurPort p) := by
  rw [Nfs.call, hstate] at hans
  obtain ⟨hlen, hport⟩ := hans
  rw [nfsHandler, if_neg (not_not.mpr rfl), hstate]
  rw [rpcLookupReply, rpcReply_fresh hp.rpc_id hp.rpc_accepted]
  refine ⟨_, if_neg zero_ne_drop, ⟨h.running, h.names, h.loadAddr, h.outside, ?_⟩, ⟨rfl, rfl⟩, rfl, ?_⟩
  · exact (replyData_rpc hlen).trans hport
  · simp only [Remote.remaining, if_pos h.running, hstate]
    omega

theorem Remote.Underway.fresh_rpcLookupNfs (hstate : s.nfsState = .rpcLookupNfs) :
    r.GoesOn s₀ s (nfsHandler s s.nfsOurPort p) := by
  have hreached := h.reached
  rw [Remote.Reached, hstate] at hreached
  rw [nfsHandler, if_neg (not_not.mpr rfl), hstate]
  dsimp only
  rw [rpcLookupReply, rpcReply_fresh hp.rpc_id hp.rpc_accepted]
  refine ⟨_, if_neg zero_ne_drop, ⟨h.running, h.names, h.loadAddr, h.outside, hreached⟩,
    ⟨rfl, rfl⟩, rfl, ?_⟩
  simp only [Remote.remaining, if_pos h.running, hstate]
  omega

theorem Remote.Underway.fresh_mount (hstate : s.nfsState = .mount) (hans : srv.Answers p s.call) :
    r.GoesOn s₀ s (nfsHandler s s.nfsOurPort p) := by
  have hreached := h.reached
  rw [Remote.Reached, hstate] at hreached
  rw [Nfs.call, hstate] at hans
  simp only [NfsServer.Answers, h.names.1, r.mounts] at hans
  obtain ⟨hlen, hok, hfh⟩ := hans
  rw [nfsHandler, if_neg (not_not.mpr rfl), hstate]
  rw [nfsMountReply, rpcReply_fresh hp.rpc_id (hp.good (by omega) hok)]
  refine ⟨_, (if_neg zero_ne_drop).trans (if_neg zero_ne_err),
    ⟨h.running, h.names, h.loadAddr, h.outside, hreached, rfl, ?_⟩, ⟨rfl, rfl⟩, rfl, ?_⟩
  · exact (NfsPacket.load_rpc hlen).trans hfh
  · simp only [Remote.remaining, if_pos h.running, hstate]
    omega

theorem Remote.Underway.fresh_lookup (hstate : s.nfsState = .lookup) (hans : srv.Answers p s.call) :
    r.GoesOn s₀ s (nfsHandler s s.nfsOurPort p) := by
  have hreached := h.reached
  rw [Remote.Reached, hstate] at hreached
  obtain ⟨hport, hmounted, hdir⟩ := hreached
  rw [Nfs.call, hstate] at hans
  simp only [NfsServer.Answers, h.names.2, hdir, r.lookup] at hans
  obtain ⟨hlen, hok, hfh⟩ := hans
  rw [nfsHandler, if_neg (not_not.mpr rfl), hstate]
  rw [nfsLookupReply, rpcReply_fresh hp.rpc_id (hp.good (by omega) hok)]
  refine ⟨_, (if_neg zero_ne_drop).trans (if_neg zero_ne_err),
    ⟨h.running, h.names, h.loadAddr, h.outside, hport, hmounted, ?_, rfl, Nat.zero_le _, trivial⟩,
    ⟨rfl, rfl⟩, rfl, ?_⟩
  · exact (NfsPacket.load_rpc hlen).trans hfh
  · simp only [Remote.remaining, if_pos h.running, hstate]
    omega

theorem Remote.Underway.fresh_read (hstate : s.nfsState = .read) (hans : srv.Answers p s.call) :
    r.GoesOn s₀ s (nfsHandler s s.nfsOurPort p) := by
  have hreached := h.reached
  rw [Remote.Reached, hstate] at hreached
  obtain ⟨hport, hmounted, hfh, hreadlen, hoff, hmem⟩ := hreached
  rw [Nfs.call, hstate] at hans
  simp only [NfsServer.Answers, hfh, r.file_eq] at hans
  have hlength := r.length_lt
  have hn : intOf (replyData p.buf 18) = replyData p.buf 18 := by
    have hle := hans.le
    rw [hreadlen, nfsReadSize] at hle
    exact Int.bmod_eq_of_le (by omega) (by omega)
  have hid : ntohl32 p.buf 0 = s.rpcId := hp.id_eq
  have hbad : ¬ (rpcRejected p.buf = true ∨ replyData p.buf 0 ≠ 0) := by
    rw [hp.accepted, hans.ok]
    exact fun hno => hno.elim Bool.false_ne_true fun hne => hne rfl
  rw [nfsHandler, if_neg (not_not.mpr rfl), hstate]
  rw [nfsReadReply, if_neg (by omega), if_neg (by omega), if_neg hbad, hn]
  have hinside := hans.inside
  have hcontains := contains_storeBlock hmem (by omega) hans.bytes
  set k := replyData p.buf 18
  have houtside : ∀ a, a < s₀.loadAddr ∨ s₀.loadAddr + r.file.length ≤ a →
      (s.storeBlock p.buf 100 s.nfsOffset k).mem a = s₀.mem a := by
    intro a ha
    have hload := h.loadAddr
    refine (store_of_outside _ _ _ ?_).trans (h.outside a ha)
    rw [length_load]
    omega
  dsimp only
  by_cases hzero : k = 0
  · -- the end of the file
    have hend : s.nfsOffset + k = r.file.length := by
      have := hans.eof.mp hzero
      omega
    rw [hend, take_length] at hcontains
    rw [if_neg (by omega), if_neg (by omega), if_pos (by omega)]
    refine ⟨_, rfl, ⟨h.running, h.names, h.loadAddr, houtside, hport, hmounted, rfl, hcontains⟩,
      ⟨rfl, rfl⟩, rfl, ?_⟩
    simp only [Remote.remaining, Nfs.storeBlock, h.running, hstate, if_true]
    omega
  · have hnext : (((s.nfsOffset : ℤ) + (k : ℤ)) % 2 ^ 32).toNat = s.nfsOffset + k := by
      omega
    have hoffset : (s.storeBlock p.buf 100 s.nfsOffset k).nfsOffset = s.nfsOffset := rfl
    rw [if_pos (by omega), hoffset, hnext]
    refine ⟨_, rfl, ⟨h.running, h.names, h.loadAddr, houtside, ?_⟩, ⟨rfl, rfl⟩, rfl, ?_⟩
    · simp only [Remote.Reached, Nfs.storeBlock, hstate]
      exact ⟨hport, hmounted, hfh, hreadlen, by omega, hcontains⟩
    · simp only [Remote.remaining, Nfs.storeBlock, if_pos h.running, hstate]
      omega

theorem Remote.Underway.fresh_umount (hstate : s.nfsState = .umount) :
    r.Stored s₀ (nfsHandler s s.nfsOurPort p) := by
  have hreached := h.reached
  rw [Remote.Reached, hstate] at hreached
  obtain ⟨-, -, hsuccess, hmem⟩ := hreached
  rw [nfsHandler, if_neg (not_not.mpr rfl), hstate]
  rw [nfsUmountallReply, rpcReply_fresh hp.rpc_id hp.rpc_accepted]
  exact ⟨hsuccess, h.loadAddr ▸ hmem, h.outside⟩

/-- The answer to the last request takes the transfer on, or ends it with the file in memory. -/
theorem Remote.Underway.fresh (hans : srv.Answers p s.call) :
    r.GoesOn s₀ s (nfsHandler s s.nfsOurPort p) ∨ r.Stored s₀ (nfsHandler s s.nfsOurPort p) := by
  cases hstate : s.nfsState with
  | rpcLookupMount => exact .inl (h.fresh_rpcLookupMount hp hstate hans)
  | rpcLookupNfs => exact .inl (h.fresh_rpcLookupNfs hp hstate)
  | mount => exact .inl (h.fresh_mount hp hstate hans)
  | lookup => exact .inl (h.fresh_lookup hp hstate hans)
  | read => exact .inl (h.fresh_read hp hstate hans)
  | umount => exact .inr (h.fresh_umount hp hstate)
  | readlink =>
    have hreached := h.reached
    rw [Remote.Reached, hstate] at hreached
    exact hreached.elim

end Fresh

/-! ### Runs -/

/-- The transfer goes on, or has ended well. -/
def Remote.Inv (r : Remote srv) (s₀ s : Nfs) : Prop := r.Underway s₀ s ∧ Logged s ∨ r.Stored s₀ s

/-- The reply to the last request arrives. -/
def Timely (s : Nfs) : NfsEvent → Bool
  | .packet dest p => s.netState = .running ∧ dest = s.nfsOurPort ∧ p.id = s.rpcId
  | .timeout => false

def NfsEvent.isTimeout : NfsEvent → Bool
  | .packet _ _ => false
  | .timeout => true

/-- What a step changes in the counters. -/
structure Remote.Advances (r : Remote srv) (s₀ s : Nfs) (e : NfsEvent) : Prop where
  inv : r.Inv s₀ (s.step e)
  remaining : r.remaining (s.step e) + (Timely s e).toNat ≤ r.remaining s
  rpcId : (s.step e).netState = .running → (s.step e).rpcId ≤ s.rpcId + 1
  timeouts : (s.step e).netState = .running → (s.step e).nfsTimeoutCount = s.nfsTimeoutCount +
    e.isTimeout.toNat

theorem Remote.Underway.remaining_pos (h : r.Underway s₀ s) : 0 < r.remaining s := by
  have hreached := h.reached
  rw [Remote.remaining, if_pos h.running]
  rw [Remote.Reached] at hreached
  cases hstate : s.nfsState with
  | readlink =>
    rw [hstate] at hreached
    exact hreached.elim
  | umount => exact Nat.one_pos
  | _ => exact Nat.succ_pos _

theorem Remote.Underway.rpcReq (h : r.Underway s₀ s) (call : NfsCall) :
    r.Underway s₀ (rpcReq s call) :=
  ⟨h.running, h.names, h.loadAddr, h.outside, h.reached⟩

/-- Sending the request of the state again. -/
theorem Remote.Underway.send {s' : Nfs} (h : r.Underway s₀ s') (hle : ∀ c ∈ s.sent, c.1 ≤ s.rpcId)
    (hsame : SameLog s s') (hid : s.rpcId + 1 < 2 ^ 32) :
    r.Inv s₀ (nfsSend s') ∧ r.remaining (nfsSend s') = r.remaining s' ∧
      (nfsSend s').rpcId = s.rpcId + 1 ∧ (nfsSend s').nfsTimeoutCount = s'.nfsTimeoutCount := by
  rw [← hsame.sent, ← hsame.rpcId] at hle
  rw [← hsame.rpcId] at hid
  obtain ⟨hrpc, hlog'⟩ := logged_rpcReq hle hid
  rw [h.nfsSend_eq]
  exact ⟨.inl ⟨h.rpcReq _, hlog'⟩, rfl, hrpc.trans (by rw [hsame.rpcId]), rfl⟩

/-- An event that changes nothing. -/
theorem Remote.Inv.advances_same (h : r.Inv s₀ s) (heq : s.step e = s) (hfresh : Timely s e = false)
    (hquiet : s.netState = .running → e.isTimeout = false) : r.Advances s₀ s e := by
  refine ⟨?_, ?_, fun _ => ?_, fun hrun => ?_⟩ <;> rw [heq]
  · exact h
  · rw [hfresh]
    exact le_rfl
  · exact Nat.le_succ _
  · rw [hquiet (heq ▸ hrun)]
    rfl

theorem Remote.Underway.advances_fresh (h : r.Underway s₀ s) (hlog : Logged s)
    (hid : s.rpcId + 1 < 2 ^ 32)
    (hp : Current s p) (hans : srv.Answers p s.call) : r.Advances s₀ s (.packet s.nfsOurPort p) := by
  have heq : s.step (.packet s.nfsOurPort p) = nfsHandler s s.nfsOurPort p := if_pos h.running
  have hfresh : Timely s (.packet s.nfsOurPort p) = true := decide_eq_true ⟨h.running, rfl, hp.id_eq⟩
  rcases h.fresh hp hans with ⟨s', hnext, hs', hsame, hsameCount, hless⟩ | hstored
  · obtain ⟨hinv, hrem, hrpc, hcount⟩ := hs'.send hlog.le hsame hid
    rw [← hnext] at hinv hrem hrpc hcount
    refine ⟨?_, ?_, ?_, ?_⟩ <;> rw [heq]
    · exact hinv
    · rw [hfresh, hrem]
      exact hless
    · exact fun _ => hrpc.le
    · exact fun _ => hcount.trans hsameCount
  · have hstop : (nfsHandler s s.nfsOurPort p).netState ≠ .running := by
      rw [hstored.success]
      decide
    refine ⟨?_, ?_, ?_, ?_⟩ <;> rw [heq]
    · exact .inr hstored
    · have hzero : r.remaining (nfsHandler s s.nfsOurPort p) = 0 := if_neg hstop
      rw [hfresh, hzero]
      exact h.remaining_pos
    · exact fun hrun => absurd hrun hstop
    · exact fun hrun => absurd hrun hstop

theorem Remote.Underway.advances_timeout (h : r.Underway s₀ s) (hlog : Logged s)
    (hid : s.rpcId + 1 < 2 ^ 32) (hcount : s.nfsTimeoutCount < nfsRetryCount) :
    r.Advances s₀ s .timeout := by
  have heq : s.step .timeout = nfsSend { s with nfsTimeoutCount := s.nfsTimeoutCount + 1 } :=
    (if_pos h.running).trans (if_neg (not_lt.mpr hcount))
  have hs' : r.Underway s₀ { s with nfsTimeoutCount := s.nfsTimeoutCount + 1 } :=
    ⟨h.running, h.names, h.loadAddr, h.outside, h.reached⟩
  obtain ⟨hinv, hrem, hrpc, hcount'⟩ := hs'.send hlog.le ⟨rfl, rfl⟩ hid
  refine ⟨?_, ?_, ?_, ?_⟩ <;> rw [heq]
  · exact hinv
  · exact hrem.le
  · exact fun _ => hrpc.le
  · exact fun _ => hcount'

/-- What may happen while no late reply comes in the read state. -/
theorem Remote.Inv.advances (hinv : r.Inv s₀ s) (harr : Arrives srv s e)
    (hcalm : Stale s e → ¬ Exposed s) (hid : s.netState = .running → s.rpcId + 1 < 2 ^ 32)
    (hcount : s.netState = .running → s.nfsTimeoutCount + e.isTimeout.toNat ≤ nfsRetryCount) :
    r.Advances s₀ s e := by
  rcases id hinv with ⟨h, hlog⟩ | h
  · cases e with
    | timeout => exact h.advances_timeout hlog (hid h.running) (hcount h.running)
    | packet dest p =>
      by_cases hdest : dest = s.nfsOurPort
      · subst hdest
        obtain ⟨c, hc, hans⟩ := harr rfl
        have hle : p.id ≤ s.rpcId := hans.id_eq ▸ hlog.le c hc
        rcases lt_or_eq_of_le hle with hlt | heq
        · have hread : s.nfsState ≠ .read := fun hread => hcalm ⟨rfl, hlt⟩ ⟨h.running, hread⟩
          have hlen := hans.len
          refine hinv.advances_same ((if_pos h.running).trans
            (nfsHandler_stale hread (by omega) hlt)) ?_ fun _ => rfl
          exact decide_eq_false fun hno => by omega
        · refine h.advances_fresh hlog (hid h.running) ⟨heq, hans.len, hans.accepted⟩ ?_
          rw [← hlog.current c hc (hans.id_eq.symm.trans heq)]
          exact hans.answers
      · refine hinv.advances_same ((if_pos h.running).trans (if_pos hdest)) ?_ fun _ => rfl
        exact decide_eq_false fun hno => hdest hno.2.1
  · have hstop : s.netState ≠ .running := by
      rw [h.success]
      decide
    refine hinv.advances_same (if_neg hstop) ?_ fun hrun => absurd hrun hstop
    cases e with
    | packet dest p => exact decide_eq_false fun hno => hstop hno.1
    | timeout => rfl

/-- The number of replies to the last request in a run. -/
def freshReplies : Nfs → List NfsEvent → ℕ
  | _, [] => 0
  | s, e :: events => (Timely s e).toNat + freshReplies (s.step e) events

theorem Remote.Inv.run {events : List NfsEvent} (h : r.Inv s₀ s)
    (harr : Guarded Nfs.step (Arrives srv) s events)
    (hcalm : Guarded Nfs.step (fun s e => Stale s e → ¬ Exposed s) s events)
    (hid : s.netState = .running → s.rpcId + events.length < 2 ^ 32)
    (hcount : s.netState = .running → s.nfsTimeoutCount + events.countP NfsEvent.isTimeout ≤
      nfsRetryCount) :
    r.Inv s₀ (events.foldl Nfs.step s) ∧
      r.remaining (events.foldl Nfs.step s) + freshReplies s events ≤ r.remaining s := by
  induction events generalizing s with
  | nil => exact ⟨h, le_rfl⟩
  | cons e events ih =>
    have hcons : (e :: events).countP NfsEvent.isTimeout = events.countP NfsEvent.isTimeout +
      e.isTimeout.toNat := by
      rw [countP_cons]
      cases e.isTimeout <;> rfl
    rw [length_cons] at hid
    have hadv : r.Advances s₀ s e := by
      refine h.advances harr.1 hcalm.1 (fun hrun => ?_) fun hrun => ?_
      · have := hid hrun
        omega
      · have := hcount hrun
        omega
    have hrunning : (s.step e).netState = .running → s.netState = .running := by
      intro hrun
      by_contra hno
      have hstep : s.step e = s := if_neg hno
      exact hno (hstep ▸ hrun)
    obtain ⟨hinv, hrem⟩ := ih hadv.inv harr.2 hcalm.2 (fun hrun => by
        have := hid (hrunning hrun)
        have := hadv.rpcId hrun
        omega)
      (fun hrun => by
        have := hcount (hrunning hrun)
        have := hadv.timeouts hrun
        omega)
    refine ⟨hinv, ?_⟩
    have := hadv.remaining
    rw [foldl_cons, freshReplies]
    omega

/-- In a run of the transfer no late reply changes anything; and when the retries are enough, the
transfer ends only with the file in memory, and it has ended once every request has been
answered. -/
def Remote.Tolerates (r : Remote srv) (s₀ : Nfs) (events : List NfsEvent) : Prop :=
  Guarded Nfs.step (fun s e => Stale s e → Harmless s (s.step e)) (nfsStart s₀ r.path r.name)
    events ∧ (events.countP NfsEvent.isTimeout ≤ nfsRetryCount →
      (events.foldl Nfs.step (nfsStart s₀ r.path r.name)).netState ≠ .running ∨
          r.file.length + 6 ≤ freshReplies (nfsStart s₀ r.path r.name) events →
        r.Stored s₀ (events.foldl Nfs.step (nfsStart s₀ r.path r.name)))

/-- The transfer begins. -/
theorem Remote.inv_nfsStart (r : Remote srv) (hrun : s₀.netState = .running)
    (hle : ∀ c ∈ s₀.sent, c.1 ≤ s₀.rpcId) (hid : s₀.rpcId + 1 < 2 ^ 32) :
    r.Inv s₀ (nfsStart s₀ r.path r.name) ∧ r.remaining (nfsStart s₀ r.path r.name) = r.file.length + 6 ∧
      (nfsStart s₀ r.path r.name).rpcId = s₀.rpcId + 1 ∧
      (nfsStart s₀ r.path r.name).nfsTimeoutCount = 0 := by
  let s : Nfs :=
    { s₀ with
      nfsDownloadState := .fail, nfsPath := r.path, nfsFilename := r.name, nfsTimeoutCount :=
        0, nfsOurPort := 1000,
      nfsState := .rpcLookupMount }
  have hs : r.Underway s₀ s := ⟨hrun, ⟨rfl, rfl⟩, rfl, fun _ _ => rfl, trivial⟩
  obtain ⟨hinv, hrem, hrpc, hcount⟩ := hs.send hle ⟨rfl, rfl⟩ hid
  refine ⟨hinv, hrem.trans ?_, hrpc, hcount⟩
  exact if_pos hrun

/-- Late replies are harmless if and only if none of them arrives while the file is read. -/
theorem tolerates_iff (r : Remote srv) (hrun : s₀.netState = .running)
    (hle : ∀ c ∈ s₀.sent, c.1 ≤ s₀.rpcId) {events : List NfsEvent}
    (hid : s₀.rpcId + 1 + events.length < 2 ^ 32)
    (harr : Guarded Nfs.step (Arrives srv) (nfsStart s₀ r.path r.name) events) :
    r.Tolerates s₀ events ↔
      Guarded Nfs.step (fun s e => Stale s e → ¬ Exposed s) (nfsStart s₀ r.path r.name) events := by
  constructor
  · rintro ⟨hharmless, -⟩
    refine (harr.and hharmless).mono fun s e h hstale => ?_
    exact (harmless_iff h.1 hstale).mp (h.2 hstale)
  · intro hcalm
    refine ⟨(harr.and hcalm).mono fun s e h hstale => ?_, fun hretries hend => ?_⟩
    · rw [harmless_iff h.1 hstale]
      exact h.2 hstale
    · obtain ⟨hinv, hrem, hrpc, hcount⟩ := r.inv_nfsStart hrun hle (by omega)
      obtain ⟨hinv', hrem'⟩ := hinv.run harr hcalm (fun _ => by omega) (fun _ => by omega)
      rcases hinv' with ⟨hunder, -⟩ | hstored
      · have hpos := hunder.remaining_pos
        rcases hend with hend | hend
        · exact absurd hunder.running hend
        · omega
      · exact hstored

end Transfer

/-! ### A late reply while the file is read -/

section Example

/-- A server with one file of one byte; all handles are zero. -/
def zeroServer : NfsServer where
  port _ := 2
  port_lt _ := by decide
  mounts _ := some (List.replicate 32 0)
  lookup _ _ := some (List.replicate 32 0)
  file _ := some [7]

/-- The only file there is. -/
def zeroFile : Remote zeroServer where
  path := ∅
  name := ∅
  dirfh := List.replicate 32 0
  filefh := List.replicate 32 0
  file := [7]
  mounts := rfl
  lookup := rfl
  file_eq := rfl
  length_lt := by decide

/-- A client before its first transfer. -/
def idleNfs : Nfs where
  fsMounted := false
  rpcId := 0
  nfsOffset := 0
  nfsLen := 0
  dirfh := []
  filefh := []
  nfsDownloadState := .fail
  nfsSrvMountPort := 0
  nfsSrvNfsPort := 0
  nfsOurPort := 0
  nfsTimeoutCount := 0
  nfsState := .rpcLookupMount
  nfsFilename := ∅
  nfsPath := ∅
  loadAddr := 0
  mem _ := 0
  netBootFileXferSize := 0
  netState := .running
  sent := []

/-- A reply with a number and one word of data. -/
def wordReply (id word : UInt8) : NfsPacket :=
  ⟨fun i => if i = 3 then id else if i = 27 then word else 0, 60, fun _ => 0⟩

theorem arrives_wordReply {s : Nfs} {id word : UInt8} (call : NfsCall)
    (hmem : (id.toNat, call) ∈ s.sent)
    (hans : zeroServer.Answers (wordReply id word) call) :
      Arrives zeroServer s (.packet 1000 (wordReply id word)) :=
  fun _ => ⟨_, hmem, rfl, show 24 ≤ 60 by decide, rfl, hans⟩

/-- A request is sent again, and then the first answer arrives late. -/
theorem tolerates_lookup : zeroFile.Tolerates idleNfs [.timeout, .packet 1000 (wordReply 1 2)] := by
  refine (tolerates_iff zeroFile rfl (fun c hc => by cases hc) (by decide) ?_).mpr ?_
  · exact ⟨trivial, arrives_wordReply (.getport .mount) (by decide +kernel) ⟨by decide, rfl⟩, trivial⟩
  · exact ⟨fun h => h.elim, fun _ h => absurd h.2 (by decide +kernel), trivial⟩

/-- The answers to the first four requests. -/
def fourReplies : List NfsEvent :=
  [.packet 1000 (wordReply 1 2), .packet 1000 (wordReply 2 2), .packet 1000 (wordReply 3 0),
    .packet 1000 (wordReply 4 0)]

/-- The answer to the lookup arrives a second time, when the file is being read. -/
theorem not_tolerates_duplicate :
    Guarded Nfs.step (Arrives zeroServer) (nfsStart idleNfs zeroFile.path zeroFile.name)
        (fourReplies ++ [.packet 1000 (wordReply 4 0)]) ∧
      ¬ zeroFile.Tolerates idleNfs (fourReplies ++ [.packet 1000 (wordReply 4 0)]) := by
  have hhandle : load (wordReply 3 0).buf 28 32 = replicate 32 0 ∧
      load (wordReply 4 0).buf 28 32 = replicate 32 0 := by decide
  constructor
  · refine ⟨arrives_wordReply (.getport .mount) (by decide +kernel) ⟨by decide, rfl⟩,
      arrives_wordReply (.getport .nfs) (by decide +kernel) ⟨by decide, rfl⟩,
      arrives_wordReply (.mount ∅) (by decide +kernel) ⟨by decide, rfl, hhandle.1⟩,
      arrives_wordReply (.lookup (replicate 32 0) ∅) (by decide +kernel) ⟨by decide, rfl, hhandle.2⟩,
      arrives_wordReply (.lookup (replicate 32 0) ∅) (by decide +kernel)
        ⟨by decide, rfl, hhandle.2⟩, trivial⟩
  · rintro ⟨hharmless, -⟩
    have hstate := (hharmless.step_of_append ⟨by decide +kernel, by decide +kernel⟩).state
    revert hstate
    decide +kernel

end Example

end UBoot.Net
