import UBoot.Env.Attr
import UBoot.Env.HashtableMap

/-!
# Flags of environment variables

Reference: `common/env_flags.c`, `include/env_flags.h`, `common/env_callback.c`,
`lib/hashtable.c::hwalk_r`.

Every entry of `env_htab` carries binary flags. They are set in two ways: when the variable `.flags`
changes, `on_flags` clears the flags of all entries and goes through the static list and the new
value; when an entry is created, `env_flags_init` looks its name up in the list and in the static
list. In the same way the callbacks of the entries are set by `on_callbacks`, when `.callbacks`
changes, and by `env_callback_init`.

`env_callback_init` and then `env_flags_init` ask for the value of their list only once, when the
very first entry is made. That is during the first import, before `GD_FLG_ENV_READY` is set, so
`getenv` takes the value from the stored environment and leaves it in `gd->env_buf`. Later calls
still read that buffer, if there was a value at all.

The lists are those of the board `gxb_p200_v1`. The permission hook, the callbacks that do not
change the table and the stored environment are parameters.
-/

namespace UBoot.Env

open UBoot.Common

/-! ## Binary flags -/

/-- `env_flags_vartype_rep`: `sdxbim`. -/
def vartypeRep : List UInt8 := [115, 100, 120, 98, 105, 109]

/-- `env_flags_varaccess_rep`: `aroc`. -/
def varaccessRep : List UInt8 := [97, 114, 111, 99]

/-- `env_flags_varaccess_mask`. -/
def varaccessMask : List ℕ := [0, 0x38, 0x28, 0x48]

/-- `env_flags_parse_vartype`. -/
def parseVartype : List UInt8 → ℕ
  | [] => 0
  | c :: _ => (vartypeRep.idxOf? c).getD 0

/-- `env_flags_parse_varaccess`. -/
def parseVaraccess : List UInt8 → ℕ
  | _ :: c :: _ => (varaccessRep.idxOf? c).getD 0
  | _ => 0

/-- `env_parse_flags_to_bin`. -/
def parseFlagsToBin (flags : List UInt8) : ℕ :=
  (parseVartype flags &&& 7) ||| varaccessMask.getD (parseVaraccess flags) 0

/-- The flags that stand for the attributes of a list entry; none or empty ones stand for 0. -/
def encodeAttributes : Option (List UInt8) → ℕ
  | none => 0
  | some [] => 0
  | some flags => parseFlagsToBin flags

/-- `ENV_FLAGS_VAR`: the name `.flags`. -/
def flagsVar : CStr := .ofBytes [46, 102, 108, 97, 103, 115]

/-- `ENV_FLAGS_LIST_STATIC`: `ethaddr:ma,`. -/
def flagsListStatic : List UInt8 := [101, 116, 104, 97, 100, 100, 114, 58, 109, 97, 44]

/-- The attributes of a name in a list, if there is one that names it, else in the static list. -/
def listedAttributes (list : Option CStr) (static : List UInt8) (name : CStr) :
    Option (Option (List UInt8)) :=
  (list.bind fun l => lastAttributes (attrEntries l.bytes) name.bytes).or
    (lastAttributes (attrEntries static) name.bytes)

/-- The flags a variable should have: those of its attributes in the value of `.flags` if that names
it, else of its attributes in the static list, else 0. -/
def flagsOf (list : Option CStr) (name : CStr) : ℕ :=
  ((listedAttributes list flagsListStatic name).map encodeAttributes).getD 0

/-! ## `on_flags` and `on_callbacks` -/

/-- The callback functions: `on_flags`, `on_callbacks`, and those that do not change the table. -/
inductive EnvCallback where
  | onFlags
  | onCallbacks
  | other (id : ℕ)
deriving DecidableEq

/-- `hwalk_r` with a function that never stops it. -/
def hwalk (htab : Htab EnvCallback) (f : Entry EnvCallback → Entry EnvCallback) :
    Htab EnvCallback :=
  { htab with
    table := fun i =>
      let slot := htab.table i
      if 1 ≤ i ∧ i ≤ htab.size ∧ slot.used > 0 then ⟨slot.used, f slot.entry⟩ else slot }

/-- `clear_flags`. -/
def clearFlags (e : Entry EnvCallback) : Entry EnvCallback := { e with flags := 0 }

/-- `set_flags`. -/
def setFlags (htab : Htab EnvCallback) (e : List UInt8 × Option (List UInt8)) : Htab EnvCallback :=
  match locate htab (.ofBytes e.1) with
  | .entry idx => htab.modifyEntry idx fun ep => { ep with flags := encodeAttributes e.2 }
  | _ => htab

/-- `on_flags`. -/
def onFlags (htab : Htab EnvCallback) (value : Option CStr) : Htab EnvCallback :=
  let htab := hwalk htab clearFlags
  let htab := (attrEntries flagsListStatic).foldl setFlags htab
  match value with
  | none => htab
  | some l => (attrEntries l.bytes).foldl setFlags htab

/-- `ENV_CALLBACK_LIST_STATIC`. -/
def callbackListStatic : List UInt8 :=
  (".callbacks:callbacks,.flags:flags,baudrate:baudrate,bootfile:bootfile,loadaddr:loadaddr," ++
    "silent:silent,stdin:console,stdout:console,stderr:console,").toUTF8.toList

/-- `clear_callback`. -/
def clearCallback (e : Entry EnvCallback) : Entry EnvCallback := { e with callback := none }

/-- `find_env_callback`, given the other callbacks. -/
def findEnvCallback (others : List UInt8 → Option ℕ) (name : List UInt8) : Option EnvCallback :=
  if name = "callbacks".toUTF8.toList then some .onCallbacks
  else if name = "flags".toUTF8.toList then some .onFlags
  else (others name).map .other

/-- `set_callback`. A name that is not that of a callback changes nothing. -/
def setCallback (others : List UInt8 → Option ℕ) (htab : Htab EnvCallback)
    (e : List UInt8 × Option (List UInt8)) : Htab EnvCallback :=
  match locate htab (.ofBytes e.1) with
  | .entry idx =>
    if e.2.getD [] = [] then htab.modifyEntry idx clearCallback
    else
      match findEnvCallback others (e.2.getD []) with
      | none => htab
      | some c => htab.modifyEntry idx fun ep => { ep with callback := some c }
  | _ => htab

/-- `on_callbacks`. -/
def onCallbacks (others : List UInt8 → Option ℕ) (htab : Htab EnvCallback) (value : Option CStr) :
    Htab EnvCallback :=
  let htab := hwalk htab clearCallback
  let htab := (attrEntries callbackListStatic).foldl (setCallback others) htab
  match value with
  | none => htab
  | some l => (attrEntries l.bytes).foldl (setCallback others) htab

/-! ## `env_flags_init` and `env_callback_init` -/

/-- The static variables of `env_flags.c` and `env_callback.c` and the buffer they refer to. The
lists are cached if `flags_list` and `callback_list` point to `gd->env_buf` and are not `NULL`.
`broken` records that `env_attr_lookup` did not return, or wrote behind the bytes it was given. -/
structure FlagsGlobals where
  firstCall : Bool
  listCached : Bool
  firstCallback : Bool
  callbacksCached : Bool
  envBuf : CStr
  broken : Bool

/-- The static variables at the start. -/
def FlagsGlobals.start (envBuf : CStr) : FlagsGlobals := ⟨true, false, true, false, envBuf, false⟩

/-- The list `flags_list` refers to. -/
def FlagsGlobals.flagsList (g : FlagsGlobals) : Option CStr :=
  if g.listCached then some g.envBuf else none

/-- The list `callback_list` refers to. -/
def FlagsGlobals.callbackList (g : FlagsGlobals) : Option CStr :=
  if g.callbacksCached then some g.envBuf else none

/-- What the model leaves open. `early` and `earlyCallbacks` are the values of `.flags` and
`.callbacks` found in the stored environment; `front`, `frontStatic` and `frontCallbacks` are the
bytes in memory in front of `gd->env_buf` and of the static lists. -/
structure EnvParams where
  changeOk : Entry EnvCallback → Option CStr → EnvOp → ℕ → Bool
  others : List UInt8 → Option ℕ
  rejects : ℕ → CStr → Option CStr → EnvOp → ℕ → Bool
  early : Option CStr
  earlyCallbacks : Option CStr
  front : UInt8
  frontStatic : UInt8
  frontCallbacks : UInt8

/-- `env_attr_lookup` in a list, if there is one, and then in the static list. -/
def lookupListed (front : UInt8) (list : Option CStr) (frontStatic : UInt8) (static : List UInt8)
    (name : CStr) : AttrLookup :=
  match list with
  | none => envAttrLookup frontStatic static name.bytes
  | some l =>
    match envAttrLookup front l.bytes name.bytes with
    | .notFound => envAttrLookup frontStatic static name.bytes
    | r => r

namespace EnvParams

variable (P : EnvParams)

/-- The first call of `env_flags_init` asks for the list. -/
def afterFirstCall (g : FlagsGlobals) : FlagsGlobals :=
  if g.firstCall then
    { g with firstCall := false, listCached := P.early.isSome, envBuf := P.early.getD g.envBuf }
  else g

/-- `env_flags_lookup`. -/
def envFlagsLookup (flagsList : Option CStr) (name : CStr) : AttrLookup :=
  lookupListed P.front flagsList P.frontStatic flagsListStatic name

/-- `env_flags_init`. The buffer `flags` has three bytes. -/
def envFlagsInit (idx : ℕ) (s : State EnvCallback FlagsGlobals) : State EnvCallback FlagsGlobals :=
  let g := P.afterFirstCall s.globals
  match P.envFlagsLookup g.flagsList (s.htab.table idx).entry.key with
  | .notFound => ⟨s.htab, g⟩
  | .hang => ⟨s.htab, { g with broken := true }⟩
  | .found flags =>
    if flags.length > 2 then ⟨s.htab, { g with broken := true }⟩
    else if flags ≠ [] then
      ⟨s.htab.modifyEntry idx fun e => { e with flags := parseFlagsToBin flags }, g⟩
    else ⟨s.htab, g⟩

/-- The first call of `env_callback_init` asks for the list. -/
def afterFirstCallback (g : FlagsGlobals) : FlagsGlobals :=
  if g.firstCallback then
    { g with
      firstCallback := false
      callbacksCached := P.earlyCallbacks.isSome
      envBuf := P.earlyCallbacks.getD g.envBuf }
  else g

/-- `env_callback_init`. The buffer `callback_name` has 256 bytes. -/
def envCallbackInit (idx : ℕ) (s : State EnvCallback FlagsGlobals) :
    State EnvCallback FlagsGlobals :=
  let g := P.afterFirstCallback s.globals
  match lookupListed P.front g.callbackList P.frontCallbacks callbackListStatic
    (s.htab.table idx).entry.key with
  | .notFound => ⟨s.htab, g⟩
  | .hang => ⟨s.htab, { g with broken := true }⟩
  | .found name =>
    if name.length > 255 then ⟨s.htab, { g with broken := true }⟩
    else if name ≠ [] then
      match findEnvCallback P.others name with
      | none => ⟨s.htab, g⟩
      | some c => ⟨s.htab.modifyEntry idx fun e => { e with callback := some c }, g⟩
    else ⟨s.htab, g⟩

/-- The functions called by `hsearch_r` and `hdelete_r` on `env_htab`. -/
def hooks : Hooks EnvCallback FlagsGlobals where
  changeOk := some P.changeOk
  callback c key newval op flag s :=
    match c with
    | .onFlags => ({ s with htab := onFlags s.htab newval }, false)
    | .onCallbacks => ({ s with htab := onCallbacks P.others s.htab newval }, false)
    | .other id => (s, P.rejects id key newval op flag)
  callbackInit := P.envCallbackInit
  flagsInit := P.envFlagsInit

end EnvParams

/-! ## Runs -/

/-- What happens to `env_htab`: variables are created or overwritten and deleted, and other early
calls of `getenv` leave their value in `gd->env_buf`. -/
inductive EnvCall where
  | enter (key data : CStr) (flag : ℕ)
  | delete (key : CStr) (flag : ℕ)
  | getenv (buf : CStr)

/-- The effect of a call. -/
def EnvCall.run (P : EnvParams) (s : State EnvCallback FlagsGlobals) :
    EnvCall → State EnvCallback FlagsGlobals
  | .enter key data flag => (hsearchR P.hooks key (.enter data) flag s).1
  | .delete key flag => (hdeleteR P.hooks key flag s).1
  | .getenv buf => { s with globals := { s.globals with envBuf := buf } }

/-- The flags of every live variable are those of its attributes in the lists. -/
def FlagsTrack (s : State EnvCallback FlagsGlobals) : Prop :=
  s.globals.broken = false ∧ ∀ i ∈ Finset.Icc 1 s.htab.size, (s.htab.table i).used > 0 →
    (s.htab.table i).entry.flags = flagsOf (lookup s.htab flagsVar) (s.htab.table i).entry.key

instance (s : State EnvCallback FlagsGlobals) : Decidable (FlagsTrack s) :=
  inferInstanceAs (Decidable (_ ∧ _))

end UBoot.Env
