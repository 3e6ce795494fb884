import UBoot.Common.CStr
import UBoot.Common.LittleEndian
import UBoot.Net.Tftp

/-!
# The NFS client

Reference: `net/nfs.c`, `net/nfs.h`.

The client asks the port mapper for two ports, mounts a directory, looks a file up in it, reads the
file and unmounts. Every request has the next number `rpc_id`, and a reply is compared with the
number used last. Requests are kept as their arguments; the layout of the packets that are sent is
left out, and so are the timers: a timeout can happen at any time.
-/

namespace UBoot.Net

open UBoot.Common

/-! ### Packets -/

/-- The 32-bit number in network order at a position. -/
def ntohl32 (buf : ℕ → UInt8) (pos : ℕ) : ℕ := ofLe (load buf pos 4).reverse

/-- A received packet: the receive buffer from its first byte on, its length, and what was on the
stack in the place of `rpc_pkt`. -/
structure NfsPacket where
  buf : ℕ → UInt8
  len : ℕ
  stack : ℕ → UInt8

namespace NfsPacket

/-- `rpc_pkt` after `memcpy` of `len` bytes. -/
def rpc (p : NfsPacket) (i : ℕ) : UInt8 := if i < p.len then p.buf i else p.stack i

/-- `u.reply.id`. -/
def id (p : NfsPacket) : ℕ := ntohl32 p.buf 0

end NfsPacket

/-- `u.reply.rstatus`, `u.reply.verifier` or `u.reply.astatus` is set. -/
def rpcRejected (rpc : ℕ → UInt8) : Bool := ntohl32 rpc 8 ≠ 0 ∨ ntohl32 rpc 12 ≠ 0 ∨
    ntohl32 rpc 20 ≠ 0

/-- `u.reply.data[i]`. -/
def replyData (rpc : ℕ → UInt8) (i : ℕ) : ℕ := ntohl32 rpc (24 + 4 * i)

/-! ### The client -/

/-- `NfsState`. -/
inductive NfsState
  | rpcLookupMount
  | rpcLookupNfs
  | mount
  | umount
  | lookup
  | read
  | readlink
deriving DecidableEq, Repr

/-- The programs whose ports are asked for. -/
inductive NfsProg
  | mount
  | nfs
deriving DecidableEq, Repr

/-- A request with its arguments. -/
inductive NfsCall
  | getport (prog : NfsProg)
  | mount (path : CStr)
  | umountall
  | lookup (dirfh : List UInt8) (fname : CStr)
  | read (filefh : List UInt8) (offset readlen : ℕ)
  | readlink (filefh : List UInt8)
deriving DecidableEq

/-- The variables of the client, with the memory it loads to and the requests sent so far, each with
its number. The `int` variables are 32-bit numbers. -/
structure Nfs where
  fsMounted : Bool
  rpcId : ℕ
  nfsOffset : ℕ
  nfsLen : ℕ
  dirfh : List UInt8
  filefh : List UInt8
  nfsDownloadState : NetState
  nfsSrvMountPort : ℕ
  nfsSrvNfsPort : ℕ
  nfsOurPort : ℕ
  nfsTimeoutCount : ℕ
  nfsState : NfsState
  nfsFilename : CStr
  nfsPath : CStr
  loadAddr : ℕ
  mem : ℕ → UInt8
  netBootFileXferSize : ℕ
  netState : NetState
  sent : List (ℕ × NfsCall)

section

variable (s : Nfs) (p : NfsPacket) (path : CStr)

/-- `NFS_RETRY_COUNT`. -/
def nfsRetryCount : ℕ := 30

/-- `NFS_READ_SIZE`. -/
def nfsReadSize : ℕ := 1024

/-- `NFS_RPC_ERR`. -/
def nfsRpcErr : ℤ := 1

/-- `NFS_RPC_DROP`. -/
def nfsRpcDrop : ℤ := 124

/-- `store_block`; `src` begins at `pos`. -/
def Nfs.storeBlock (src : ℕ → UInt8) (pos offset len : ℕ) : Nfs :=
  let newsize := (offset + len) % 2 ^ 32
  { s with
    mem := store s.mem (s.loadAddr + offset) (load src pos len)
    netBootFileXferSize := if s.netBootFileXferSize < newsize then newsize else s.netBootFileXferSize }

/-- `rpc_req`. The packet has 32 bits for the number. -/
def rpcReq (call : NfsCall) : Nfs :=
  let id := (s.rpcId + 1) % 2 ^ 64
  { s with rpcId := id, sent := s.sent ++ [(id % 2 ^ 32, call)] }

/-- The request that belongs to the state. -/
def Nfs.call : NfsCall :=
  match s.nfsState with
  | .rpcLookupMount => .getport .mount
  | .rpcLookupNfs => .getport .nfs
  | .mount => .mount s.nfsPath
  | .umount => .umountall
  | .lookup => .lookup s.dirfh s.nfsFilename
  | .read => .read s.filefh s.nfsOffset s.nfsLen
  | .readlink => .readlink s.filefh

/-- `NfsSend`. When nothing is mounted `nfs_umountall_req` sends nothing. -/
def nfsSend : Nfs :=
  if s.nfsState = .umount ∧ (s.nfsSrvMountPort = 2 ^ 32 - 1 ∨ s.fsMounted = false) then
    s else rpcReq s s.call

/-! ### Replies -/

/-- The part the reply functions share: the number of the reply is compared, then its status, then
it is used. -/
def rpcReply (rpc : ℕ → UInt8) (bad : Bool) (use : Nfs) : Nfs × ℤ :=
  if ntohl32 rpc 0 > s.rpcId then (s, -nfsRpcErr)
  else if ntohl32 rpc 0 < s.rpcId then (s, -nfsRpcDrop)
  else if bad then (s, -1)
  else (use, 0)

/-- `rpc_lookup_reply`. -/
def rpcLookupReply (prog : NfsProg) (s : Nfs) (p : NfsPacket) : Nfs × ℤ :=
  rpcReply s p.rpc (rpcRejected p.rpc)
    (match prog with
      | .mount => { s with nfsSrvMountPort := replyData p.rpc 0 }
      | .nfs => { s with nfsSrvNfsPort := replyData p.rpc 0 })

/-- `nfs_mount_reply`. -/
def nfsMountReply : Nfs × ℤ :=
  rpcReply s p.rpc (rpcRejected p.rpc || replyData p.rpc 0 ≠ 0)
    { s with fsMounted := true, dirfh := load p.rpc 28 32 }

/-- `nfs_umountall_reply`. -/
def nfsUmountallReply : Nfs × ℤ :=
  rpcReply s p.rpc (rpcRejected p.rpc) { s with fsMounted := false, dirfh := List.replicate 32 0 }

/-- `nfs_lookup_reply`. -/
def nfsLookupReply : Nfs × ℤ :=
  rpcReply s p.rpc (rpcRejected p.rpc || replyData p.rpc 0 ≠ 0) { s with filefh := load p.rpc 28 32 }

/-- `nfs_readlink_reply`: a relative link is appended to the path. -/
def nfsReadlinkReply : Nfs × ℤ :=
  let link := load p.rpc 32 (replyData p.rpc 1)
  rpcReply s p.rpc (rpcRejected p.rpc || replyData p.rpc 0 ≠ 0)
    { s with
      nfsPath := if p.rpc 32 ≠ 47 then .ofBytes (s.nfsPath.bytes ++ 47 :: link) else .ofBytes link }

/-- A 32-bit number as an `int`. -/
def intOf (n : ℕ) : ℤ := (n : ℤ).bmod (2 ^ 32)

/-- `nfs_read_reply`: the number of bytes read, or a negative error number. Here the header is
copied whole, whatever the length. -/
def nfsReadReply : Nfs × ℤ :=
  if ntohl32 p.buf 0 > s.rpcId then (s, -nfsRpcErr)
  else if ntohl32 p.buf 0 < s.rpcId then (s, -nfsRpcDrop)
  else if rpcRejected p.buf ∨ replyData p.buf 0 ≠ 0 then
    if ntohl32 p.buf 8 ≠ 0 ∨ ntohl32 p.buf 20 ≠ 0 then (s, -9999)
    else (s, intOf (2 ^ 32 - replyData p.buf 0))
  else (s.storeBlock p.buf 100 s.nfsOffset (replyData p.buf 18), intOf (replyData p.buf 18))

/-! ### The state machine -/

/-- Send the request of the next state. -/
def Nfs.goTo (state : NfsState) : Nfs := nfsSend { s with nfsState := state }

/-- The last component of a path. -/
def basename : CStr := .ofBytes (path.bytes.reverse.takeWhile (· ≠ 47)).reverse

/-- The path in front of its last component. -/
def dirname : CStr := .ofBytes ((path.bytes.reverse.dropWhile (· ≠ 47)).drop 1).reverse

/-- `NfsTimeout`. `NetStartAgain` ends this attempt. -/
def nfsTimeout : Nfs :=
  let s := { s with nfsTimeoutCount := s.nfsTimeoutCount + 1 }
  if s.nfsTimeoutCount > nfsRetryCount then { s with netState := .restart } else nfsSend s

/-- `NfsHandler`. -/
def nfsHandler (dest : ℕ) (p : NfsPacket) : Nfs :=
  if dest ≠ s.nfsOurPort then s
  else
    match s.nfsState with
    | .rpcLookupMount =>
      let (s, reply) := rpcLookupReply .mount s p
      if reply = -nfsRpcDrop then s else s.goTo .rpcLookupNfs
    | .rpcLookupNfs =>
      let (s, reply) := rpcLookupReply .nfs s p
      if reply = -nfsRpcDrop then s else s.goTo .mount
    | .mount =>
      let (s, reply) := nfsMountReply s p
      if reply = -nfsRpcDrop then s
      else if reply = -nfsRpcErr then s.goTo .umount
      else s.goTo .lookup
    | .umount =>
      let (s, reply) := nfsUmountallReply s p
      if reply = -nfsRpcDrop then s
      else if reply = -nfsRpcErr then { s with netState := .fail }
      else { s with netState := s.nfsDownloadState }
    | .lookup =>
      let (s, reply) := nfsLookupReply s p
      if reply = -nfsRpcDrop then s
      else if reply = -nfsRpcErr then s.goTo .umount
      else { s with nfsOffset := 0, nfsLen := nfsReadSize }.goTo .read
    | .readlink =>
      let (s, reply) := nfsReadlinkReply s p
      if reply = -nfsRpcDrop then s
      else if reply = -nfsRpcErr then s.goTo .umount
      else { s with nfsFilename := basename s.nfsPath, nfsPath := dirname s.nfsPath }.goTo .mount
    | .read =>
      let (s, rlen) := nfsReadReply s p
      if rlen > 0 then nfsSend { s with nfsOffset := ((s.nfsOffset + rlen) % 2 ^ 32).toNat }
      else if rlen = -21 ∨ rlen = -22 then s.goTo .readlink
      else if rlen = 0 then { s with nfsDownloadState := .success }.goTo .umount
      else s.goTo .umount

/-- `NfsStart` with the directory and the name of the file. -/
def nfsStart (filename : CStr) : Nfs :=
  { s with
    nfsDownloadState := .fail, nfsPath := path, nfsFilename := filename, nfsTimeoutCount := 0,
    nfsOurPort := 1000 }.goTo .rpcLookupMount

/-- What happens to the client. -/
inductive NfsEvent
  | packet (dest : ℕ) (p : NfsPacket)
  | timeout

/-- The client takes events as long as the loop runs. -/
def Nfs.step (e : NfsEvent) : Nfs :=
  if s.netState = .running then
    match e with
    | .packet dest p => nfsHandler s dest p
    | .timeout => nfsTimeout s
  else s

end

end UBoot.Net
