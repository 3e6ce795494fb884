import UBoot.Common.CStr
import UBoot.Common.Rotation

/-!
# The environment hash table

Reference: `lib/hashtable.c`, `include/search.h`.

A table has `size + 1` slots, slot `0` unused. The field `used` of a slot is `0` (never used), `-1`
(deleted), or the first index `hval` of the key stored there. A key is looked for at `hval`, then
every `hval2` slots further down (double hashing), until a never-used slot is met or the probe is
back at `hval`.

`hsearch_r` and `hdelete_r` call out to the permission hook `change_ok`, to the callback of the
entry and, for a new entry, to `env_callback_init` and `env_flags_init`. These are the fields of
`Hooks`; they may change the table, so the state is passed through them. Copies made by `strdup`
always succeed.
-/

namespace UBoot.Env

open UBoot.Common Function

/-- `enum env_op`. -/
inductive EnvOp where
  | create
  | delete
  | overwrite
deriving DecidableEq, Repr

/-- The values of `errno` set by the table functions. -/
inductive Errno where
  | einval
  | enomem
  | eperm
  | esrch
deriving DecidableEq, Repr

/-- `struct entry`; `κ` names the callback functions. -/
structure Entry (κ : Type) where
  key : CStr
  data : CStr
  callback : Option κ
  flags : ℕ
deriving DecidableEq

/-- `struct _ENTRY`. -/
structure Slot (κ : Type) where
  used : ℤ
  entry : Entry κ
deriving DecidableEq

/-- A zeroed slot, as `calloc` hands it out. -/
instance {κ : Type} : Inhabited (Slot κ) := ⟨⟨0, ⟨∅, ∅, none, 0⟩⟩⟩

/-- `struct hsearch_data` with an existing table. -/
structure Htab (κ : Type) where
  table : ℕ → Slot κ
  size : ℕ
  filled : ℕ

/-- `ACTION` with the data of the item: `FIND`, or `ENTER` of a new value. -/
inductive Action where
  | find
  | enter (data : CStr)
deriving DecidableEq

/-! ## `hcreate_r` -/

/-- The loop of `isprime` and the value of `div` it leaves behind. `div` runs through the odd
numbers from 3, so `number` rounds are enough: at the latest it stops when `div` is `number`. -/
def isprimeLoop (number : ℕ) : ℕ → ℕ → ℕ
  | 0, div => div
  | fuel + 1, div =>
    if div * div % 2 ^ 32 < number ∧ number % div ≠ 0 then
      isprimeLoop number fuel ((div + 2) % 2 ^ 32)
    else div

/-- `isprime`; no even number is passed. -/
def isprime (number : ℕ) : Bool := number % isprimeLoop number number 3 ≠ 0

/-- The loop of `hcreate_r` that raises an odd `nel` to the next number `isprime` accepts. -/
def hcreateLoop : ℕ → ℕ → Option ℕ
  | 0, _ => none
  | fuel + 1, nel =>
    if isprime (nel % 2 ^ 32) then some nel else hcreateLoop fuel ((nel + 2) % 2 ^ 64)

/-- `hcreate_r` on a `struct hsearch_data` without a table. A prime lies between `nel` and `2 *
nel`, so `nel + 1` rounds of the search are enough. -/
def hcreateR {κ : Type} (nel : ℕ) : Option (Htab κ) :=
  (hcreateLoop (nel + 1) (nel ||| 1)).map fun size =>
    { table := fun _ => default, size := size % 2 ^ 32, filled := 0 }

/-! ## Probing -/

/-- The 32-bit value computed from the key before it is reduced modulo the table size. The loop of
`hsearch_r` runs from the last character to the first; `char` is unsigned on the target. -/
def hashKey (key : CStr) : ℕ :=
  let len := key.length % 2 ^ 32
  (key.bytes.take len).foldr (fun c hval => (hval * 16 + c.toNat) % 2 ^ 32) len

/-- `hval`: the first index tried for a key, never zero. -/
def firstIndex (size : ℕ) (key : CStr) : ℕ :=
  let hval := hashKey key % size
  if hval = 0 then 1 else hval

/-- `hval2`: the distance between two probes. -/
def probeStep (size hval : ℕ) : ℕ := 1 + hval % (size - 2)

/-- The value of an `unsigned int` stored into an `int`. -/
def intOfU32 (n : ℕ) : ℤ := if n < 2 ^ 31 then n else n - 2 ^ 32

/-- The comparison of `_compare_and_overwrite_entry`: the slot holds this key. -/
def Slot.holds {κ : Type} (slot : Slot κ) (hval : ℕ) (key : CStr) : Bool :=
  slot.used = intOfU32 hval ∧ key = slot.entry.key

/-- Where the probe of `hsearch_r` ends. -/
inductive Located where
  /-- at the entry of the key -/
  | entry (idx : ℕ)
  /-- at a never-used slot, or back at `hval` -/
  | bucket (idx : ℕ)
  /-- nowhere: the `do … while` loop goes on -/
  | hang
deriving DecidableEq

/-- The `do … while` loop of `hsearch_r`. -/
def locateLoop {κ : Type} (htab : Htab κ) (key : CStr) (hval hval2 : ℕ) : ℕ → ℕ → Located
  | 0, _ => .hang
  | fuel + 1, idx =>
    let idx := stepDown htab.size hval2 idx
    if idx = hval then .bucket idx
    else if (htab.table idx).holds hval key then .entry idx
    else if (htab.table idx).used ≠ 0 then locateLoop htab key hval hval2 fuel idx
    else .bucket idx

/-- The probe of `hsearch_r`. The loop comes back to `hval` after at most `size` rounds. -/
def locate {κ : Type} (htab : Htab κ) (key : CStr) : Located :=
  let hval := firstIndex htab.size key
  if (htab.table hval).used = 0 then .bucket hval
  else if (htab.table hval).holds hval key then .entry hval
  else locateLoop htab key hval (probeStep htab.size hval) htab.size hval

/-- `first_deleted`: the first index when its slot is deleted, else zero. -/
def firstDeleted {κ : Type} (htab : Htab κ) (key : CStr) : ℕ :=
  let hval := firstIndex htab.size key
  if (htab.table hval).used = -1 then hval else 0

/-! ## Changing a table -/

namespace Htab

variable {κ : Type}

/-- Change the entry in one slot. -/
def modifyEntry (htab : Htab κ) (idx : ℕ) (f : Entry κ → Entry κ) : Htab κ :=
  let slot := htab.table idx
  { htab with table := update htab.table idx ⟨slot.used, f slot.entry⟩ }

/-- Fill a slot with copies of key and data. Callback and flags of the slot stay what they were. -/
def store (htab : Htab κ) (idx hval : ℕ) (key data : CStr) : Htab κ :=
  let e := (htab.table idx).entry
  { htab with
    table := update htab.table idx ⟨intOfU32 hval, { e with key := key, data := data }⟩
    filled := htab.filled + 1 }

/-- `_hdelete`. -/
def hdelete (htab : Htab κ) (idx : ℕ) : Htab κ :=
  let e := (htab.table idx).entry
  { htab with
    table := update htab.table idx ⟨-1, { e with callback := none, flags := 0 }⟩
    filled := htab.filled - 1 }

end Htab

/-! ## `hsearch_r` and `hdelete_r` -/

/-- A table together with the static variables `γ` of the functions it calls. -/
structure State (κ γ : Type) where
  htab : Htab κ
  globals : γ

/-- The functions called by `hsearch_r` and `hdelete_r`. A result `true` of `changeOk` or `callback`
is a non-zero return value: the change is denied. -/
structure Hooks (κ γ : Type) where
  changeOk : Option (Entry κ → Option CStr → EnvOp → ℕ → Bool)
  callback : κ → CStr → Option CStr → EnvOp → ℕ → State κ γ → State κ γ × Bool
  callbackInit : ℕ → State κ γ → State κ γ
  flagsInit : ℕ → State κ γ → State κ γ

/-- Neither a permission hook nor callbacks. -/
def noHooks : Hooks Empty Unit where
  changeOk := none
  callback c := c.elim
  callbackInit _ s := s
  flagsInit _ s := s

namespace Hooks

variable {κ γ : Type}

/-- The permission check: an absent hook permits everything. -/
def denies (hk : Hooks κ γ) (e : Entry κ) (newval : Option CStr) (op : EnvOp) (flag : ℕ) : Bool :=
  match hk.changeOk with
  | none => false
  | some f => f e newval op flag

/-- Call the callback of an entry, if it has one. -/
def runCallback (hk : Hooks κ γ) (cb : Option κ) (key : CStr) (newval : Option CStr) (op : EnvOp)
    (flag : ℕ) (s : State κ γ) : State κ γ × Bool :=
  match cb with
  | none => (s, false)
  | some c => hk.callback c key newval op flag s

end Hooks

/-- What `hsearch_r` returns. -/
inductive Result where
  /-- returns the index of an existing entry, `*retval` is that entry -/
  | found (idx : ℕ)
  /-- returns 1, `*retval` is the new entry -/
  | created (idx : ℕ)
  /-- returns 0, `*retval` is `NULL` -/
  | failed (e : Errno)
  /-- does not return -/
  | hang
deriving DecidableEq

section

variable {κ γ : Type} (hk : Hooks κ γ)

/-- `_compare_and_overwrite_entry` at a slot that holds the key. -/
def overwriteEntry (key : CStr) (action : Action) (flag idx : ℕ) (s : State κ γ) :
    State κ γ × Result :=
  match action with
  | .find => (s, .found idx)
  | .enter data =>
    let e := (s.htab.table idx).entry
    if hk.denies e (some data) .overwrite flag then (s, .failed .eperm)
    else
      let (s, rejected) := hk.runCallback e.callback key (some data) .overwrite flag s
      if rejected then (s, .failed .einval)
      else
        ({ s with htab := s.htab.modifyEntry idx fun e => { e with data := data } }, .found idx)

/-- The creation of a new entry in slot `idx`. A denied entry is deleted again. -/
def createEntry (key data : CStr) (flag idx : ℕ) (s : State κ γ) : State κ γ × Result :=
  let hval := firstIndex s.htab.size key
  let s := { s with htab := s.htab.store idx hval key data }
  let s := hk.flagsInit idx (hk.callbackInit idx s)
  if hk.denies (s.htab.table idx).entry (some data) .create flag then
    ({ s with htab := s.htab.hdelete idx }, .failed .eperm)
  else
    let (s, rejected) := hk.runCallback (s.htab.table idx).entry.callback key (some data) .create flag s
    if rejected then ({ s with htab := s.htab.hdelete idx }, .failed .einval)
    else (s, .created idx)

/-- `hsearch_r`. -/
def hsearchR (key : CStr) (action : Action) (flag : ℕ) (s : State κ γ) : State κ γ × Result :=
  match locate s.htab key with
  | .hang => (s, .hang)
  | .entry idx => overwriteEntry hk key action flag idx s
  | .bucket idx =>
    match action with
    | .find => (s, .failed .esrch)
    | .enter data =>
      if s.htab.filled = s.htab.size then (s, .failed .enomem)
      else
        let first := firstDeleted s.htab key
        createEntry hk key data flag (if first ≠ 0 then first else idx) s

/-- `hdelete_r`; `found idx` stands for the return value 1. -/
def hdeleteR (key : CStr) (flag : ℕ) (s : State κ γ) : State κ γ × Result :=
  match hsearchR hk key .find 0 s with
  | (s, .found idx) =>
    let e := (s.htab.table idx).entry
    if hk.denies e none .delete flag then (s, .failed .eperm)
    else
      let (s, rejected) := hk.runCallback e.callback key none .delete flag s
      if rejected then (s, .failed .einval)
      else ({ s with htab := s.htab.hdelete idx }, .found idx)
  | (s, .hang) => (s, .hang)
  | (s, _) => (s, .failed .esrch)

end

/-- The data found by `hsearch_r` with action `FIND`, which consults no hook. -/
def lookup {κ : Type} (htab : Htab κ) (key : CStr) : Option CStr :=
  match locate htab key with
  | .entry idx => some (htab.table idx).entry.data
  | _ => none

end UBoot.Env
