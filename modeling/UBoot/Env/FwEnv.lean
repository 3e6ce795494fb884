import UBoot.Env.EarlyLookup

/-!
# Setting variables from user space

Reference: `tools/env/fw_env.c::fw_env_write`, `tools/env/fw_env.c::envmatch`.

The tool changes the block of `name=value` strings in place: the old definition is cut out and the
new one is put at the end. Nothing is escaped. The block is a memory from `environment.data` on; the
checks of `env_flags_validate_varaccess` and the default environment are parameters, and strings are
shorter than 2 GiB.
-/

namespace UBoot.Env

open UBoot.Common List Function

/-! ## The source -/

/-- What `env_flags_validate_varaccess` is asked about. -/
inductive VarAccess where
  | preventDelete
  | preventOverwr
  | preventNondefOverwr
  | preventCreate
deriving DecidableEq

/-- What the tool is built with and configured for. `validateVaraccess` is true if the access is
denied. -/
structure FwConfig where
  envSize : ℕ
  validateVaraccess : (ℕ → UInt8) → CStr → VarAccess → Bool
  getdefenv : CStr → Option CStr

/-- Where the search for a variable ends. -/
inductive FwSearch where
  /-- at the entry from `env` to the terminator at `nxt`, with the value at `oldval` -/
  | found (env nxt oldval : ℕ)
  | notFound
  /-- the block is not terminated, or an entry without `=` is compared beyond its end -/
  | failed
deriving DecidableEq

section

variable (envSize : ℕ) (cfg : FwConfig) (data : ℕ → UInt8) (name : CStr) (value : Option CStr)

/-- The search loop of `fw_env_write`. Each round goes on behind a terminator. -/
def fwSearch (envSize : ℕ) (name : CStr) : ℕ → ℕ → FwSearch
  | 0, _ => .failed
  | fuel + 1, env =>
    if data env = 0 then .notFound
    else
      match entryEnd data envSize (envSize + 1) env with
      | none => .failed
      | some nxt =>
        match envmatch data name.bytes env with
        | .value oldval => .found env nxt oldval
        | .mismatch => fwSearch envSize name fuel (nxt + 1)
        | .overrun => .failed

/-- The loop that moves the entries behind `nxt` to `env`, up to two terminators. -/
def shiftDown : ℕ → (ℕ → UInt8) → ℕ → ℕ → Option ((ℕ → UInt8) × ℕ)
  | 0, _, _, _ => none
  | fuel + 1, data, env, nxt =>
    let data := update data env (data nxt)
    if data env = 0 ∧ data (nxt + 1) = 0 then some (data, env)
    else shiftDown fuel data (env + 1) (nxt + 1)

/-- The removal of the entry at `env` whose terminator is at `nxt`. -/
def removeEntry (env nxt : ℕ) : Option (ℕ → UInt8) :=
  let shifted := if data (nxt + 1) = 0 then some (update data env 0, env)
    else shiftDown envSize data env (nxt + 1)
  shifted.map fun p => update p.1 (p.2 + 1) 0

/-- The loop that looks for the end of the block. -/
def blockEnd : ℕ → ℕ → Option ℕ
  | 0, _ => none
  | fuel + 1, env => if data env = 0 ∧ data (env + 1) = 0 then some env else blockEnd fuel (env + 1)

/-- What `fw_env_write` returns and leaves in the block. -/
inductive FwResult where
  /-- returns 0 -/
  | ok (data : ℕ → UInt8)
  /-- returns -1 -/
  | error (data : ℕ → UInt8)
  /-- a loop leaves the block -/
  | runaway

/-- The new definition at the end of the block. -/
def appendEntry (value : CStr) : FwResult :=
  match blockEnd data (envSize + 1) 0 with
  | none => .runaway
  | some env =>
    let env := if env > 0 then env + 1 else env
    let len := name.length + 2 + (value.length + 1)
    if env + len > envSize then .error data
    else .ok (store data env (name.bytes ++ 61 :: value.bytes ++ [0, 0]))

/-- `value && strlen(value)`: the value, unless the variable is to be deleted. -/
def newValue : Option CStr := value.filter (· ≠ ∅)

/-- Whether the value of a variable with the default value in the environment may not be changed. -/
def deniesNondef (oldval nxt : ℕ) : Bool :=
  cfg.validateVaraccess data name .preventNondefOverwr ∧
    CStr.ofBytes (load data oldval (nxt - oldval)) ≠ (cfg.getdefenv name).getD ∅

/-- `fw_env_write`. -/
def fwEnvWrite : FwResult :=
  match fwSearch data cfg.envSize name (cfg.envSize + 1) 0, newValue value with
  | .failed, _ => .error data
  | .notFound, none => .ok data
  | .notFound, some value =>
    if cfg.validateVaraccess data name .preventCreate then .error data
    else appendEntry cfg.envSize data name value
  | .found env nxt _, none =>
    if cfg.validateVaraccess data name .preventDelete then .error data
    else
      match removeEntry cfg.envSize data env nxt with
      | none => .runaway
      | some data => .ok data
  | .found env nxt oldval, some value =>
    if cfg.validateVaraccess data name .preventOverwr then .error data
    else if deniesNondef cfg data name oldval nxt then .error data
    else
      match removeEntry cfg.envSize data env nxt with
      | none => .runaway
      | some data => appendEntry cfg.envSize data name value

/-- The string of a variable. -/
def varLine (v : CStr × CStr) : List UInt8 := v.1.bytes ++ 61 :: v.2.bytes

/-- The strings of the variables, each with its terminator. -/
def varText (vars : List (CStr × CStr)) : List UInt8 := vars.flatMap fun v => varLine v ++ [0]

/-- A variable that the tool can set: its name is not empty and has no `=`, its value is not
empty. -/
structure Settable (v : CStr × CStr) : Prop where
  name_ne : v.1.bytes ≠ []
  no_equals : 61 ∉ v.1.bytes
  value_ne : v.2.bytes ≠ []

/-- The block holds the variables. -/
structure Block (data : ℕ → UInt8) (envSize : ℕ) (vars : List (CStr × CStr)) : Prop where
  text : Contains data 0 (varText vars ++ [0])
  empty : vars = [] → data 1 = 0
  settable : ∀ v ∈ vars, Settable v
  nodup : (vars.map Prod.fst).Nodup
  fits : vars ≠ [] → (varText vars).length < envSize

/-- The block holds the definitions: strings `name=value` with distinct names and two terminators
behind them, all in the area of the environment. -/
structure Defines (data : ℕ → UInt8) (envSize : ℕ) (vars : List (CStr × CStr)) : Prop where
  text : Contains data 0 (varText vars ++ [0])
  empty : vars = [] → data 1 = 0
  no_equals : ∀ v ∈ vars, 61 ∉ v.1.bytes
  nodup : (vars.map Prod.fst).Nodup
  fits : vars ≠ [] → (varText vars).length < envSize

/-- The value that a name has among the definitions. -/
def definedAs (vars : List (CStr × CStr)) (name : CStr) : Option CStr :=
  (vars.find? (·.1 = name)).map Prod.snd

/-- The access flags of a variable do not allow the change: its creation, its deletion, or another
value, if only its default one may be replaced. -/
def Denied (cfg : FwConfig) (data : ℕ → UInt8) (vars : List (CStr × CStr)) (name : CStr)
    (value : Option CStr) : Prop :=
  match definedAs vars (variableOf name), newValue value with
  | none, none => False
  | none, some _ => cfg.validateVaraccess data name .preventCreate = true
  | some _, none => cfg.validateVaraccess data name .preventDelete = true
  | some old, some _ => cfg.validateVaraccess data name .preventOverwr = true ∨
      cfg.validateVaraccess data name .preventNondefOverwr = true ∧ old ≠ (cfg.getdefenv name).getD ∅

/-- An assignment: the variable gets its new value, or is deleted. -/
def assign (vars : List (CStr × CStr)) (name : CStr) (value : Option CStr) : List (CStr × CStr) :=
  vars.filter (·.1 ≠ name) ++ ((newValue value).map fun v => (name, v)).toList

end

variable {l : List UInt8} {pre post : List (CStr × CStr)}

section Text

variable {v : CStr × CStr} {vars : List (CStr × CStr)}

variable (v)

theorem varText_cons (vars : List (CStr × CStr)) :
    varText (v :: vars) = varLine v ++ 0 :: varText vars := by
  rw [varText, flatMap_cons, append_assoc]
  rfl

theorem varText_append (vars vars' : List (CStr × CStr)) :
    varText (vars ++ vars') = varText vars ++ varText vars' :=
  flatMap_append

theorem nul_notMem_varLine : 0 ∉ varLine v := by
  rw [varLine, mem_append, mem_cons]
  rintro (h | h | h)
  · exact v.1.nul_free h
  · cases h
  · exact v.2.nul_free h

theorem varLine_ne_nil : varLine v ≠ [] := by simp [varLine]

/-- No two terminators stand next to each other. -/
def NoDoubleNul (l : List UInt8) : Prop := l.IsChain fun c d => c ≠ 0 ∨ d ≠ 0

theorem noDoubleNul_of_notMem (h : 0 ∉ l) : NoDoubleNul l := by
  induction l with
  | nil => exact .nil
  | cons c l ih =>
    cases l with
    | nil => exact .singleton c
    | cons d l =>
      exact .cons_cons (.inl fun hc => h (hc ▸ mem_cons_self)) (ih fun h' => h (mem_cons_of_mem _ h'))

theorem noDoubleNul_varText (vars : List (CStr × CStr)) : NoDoubleNul (varText vars) := by
  induction vars with
  | nil => exact .nil
  | cons v vars ih =>
    rw [varText_cons]
    refine isChain_append.mpr ⟨noDoubleNul_of_notMem (nul_notMem_varLine v), ?_, ?_⟩
    · cases vars with
      | nil => exact .singleton 0
      | cons w vars =>
        obtain ⟨c, l, hl⟩ := exists_cons_of_ne_nil (varLine_ne_nil w)
        have hc : c ≠ 0 := fun h => nul_notMem_varLine w (by rw [hl, h]; exact mem_cons_self)
        rw [varText_cons, hl] at ih ⊢
        exact .cons_cons (.inr hc) ih
    · intro c hc d _
      exact .inl fun h => nul_notMem_varLine v (h ▸ mem_of_getLast? hc)

/-- The text of some variables ends with a terminator. -/
theorem exists_varText_eq (hne : vars ≠ []) : ∃ l, varText vars = l ++ [0] := by
  rw [← dropLast_append_getLast hne, varText_append]
  exact ⟨varText vars.dropLast ++ varLine (vars.getLast hne), by simp [varText]⟩

end Text

/-! ## The loops -/

section Loops

variable {data : ℕ → UInt8} {envSize : ℕ} {name : CStr} {vars : List (CStr × CStr)} {fuel : ℕ}

variable {v : CStr × CStr} {i env : ℕ} {value : CStr}

theorem head_varLine_ne (h : Contains data i (varLine v)) : data i ≠ 0 := by
  obtain ⟨c, l, hl⟩ := exists_cons_of_ne_nil (varLine_ne_nil v)
  rw [hl] at h
  intro h0
  exact nul_notMem_varLine v (by rw [hl, ← h0, h.1]; exact mem_cons_self)

/-- The search at an entry: it is the wanted one or it is passed. -/
theorem fwSearch_entry {rest : List UInt8} (hv : 61 ∉ v.1.bytes)
    (h : Contains data i (varLine v ++ 0 :: rest)) (hsize : i + (varLine v).length < envSize) :
    fwSearch data envSize name (fuel + 1) i =
      if variableOf name = v.1 then .found i (i + (varLine v).length) (i + v.1.length + 1)
      else fwSearch data envSize name fuel (i + (varLine v).length + 1) := by
  obtain ⟨hline, hnul, -⟩ := contains_append.mp h
  have hend : entryEnd data envSize (envSize + 1) i = some (i + (varLine v).length) :=
    entryEnd_eq (nul_notMem_varLine v) (contains_append.mpr ⟨hline, hnul, trivial⟩) (by omega) (by omega)
  have hmatch : envmatch data name.bytes i = _ :=
    envmatch_eq hv v.1.nul_free (show Contains data i (v.1.bytes ++ 61 :: v.2.bytes) from hline)
  rw [← bytes_variableOf] at hmatch
  rw [fwSearch, if_neg (head_varLine_ne hline), hend]
  simp only [hmatch, CStr.ext_iff]
  split_ifs <;> rfl

/-- The search passes the entries of other variables. -/
theorem fwSearch_append (pre : List (CStr × CStr)) (hpre : ∀ v ∈ pre, 61 ∉ v.1.bytes)
    (hother : variableOf name ∉ pre.map Prod.fst) (rest : List UInt8)
    (h : Contains data i (varText pre ++ rest)) (hsize : i + (varText pre).length ≤ envSize) :
    fwSearch data envSize name (fuel + pre.length) i = fwSearch data envSize name fuel
      (i + (varText pre).length) := by
  induction pre generalizing i with
  | nil => rfl
  | cons v pre ih =>
    rw [varText_cons, append_assoc] at h
    rw [varText_cons, length_append, length_cons] at hsize
    have hv : variableOf name ≠ v.1 := fun heq => hother (heq ▸ mem_cons_self)
    have hrec := ih (forall_mem_cons.mp hpre).2
      (fun hmem => hother (mem_cons_of_mem _ hmem)) (contains_append.mp h).2.2 (by omega)
    rw [length_cons, ← add_assoc, fwSearch_entry (hpre v mem_cons_self) h (by omega), if_neg hv,
      hrec, varText_cons, length_append, length_cons]
    congr 1
    omega

theorem fwSearch_notFound (hblock : Defines data envSize vars)
    (hother : variableOf name ∉ vars.map Prod.fst) (hfuel : vars.length < fuel) :
    fwSearch data envSize name fuel 0 = .notFound := by
  have hsize : (varText vars).length ≤ envSize := by
    by_cases hne : vars = []
    · simp [hne, varText]
    · exact (hblock.fits hne).le
  obtain ⟨k, rfl⟩ : ∃ k, fuel = k + 1 + vars.length := ⟨fuel - vars.length - 1, by omega⟩
  rw [fwSearch_append vars hblock.no_equals hother [0] hblock.text (by omega), fwSearch, if_pos]
  exact (contains_append.mp hblock.text).2.1

/-- The search stops at the entry of the variable. -/
theorem fwSearch_found (hblock : Defines data envSize (pre ++ (variableOf name, value) :: post))
    (hfuel : pre.length < fuel) :
    fwSearch data envSize name fuel 0 =
      .found (varText pre).length ((varText pre).length + (varLine (variableOf name, value)).length)
        ((varText pre).length + (variableOf name).length + 1) := by
  have hother : variableOf name ∉ pre.map Prod.fst := by
    have hnd := hblock.nodup
    rw [map_append] at hnd
    exact fun hmem => (disjoint_of_nodup_append hnd) hmem mem_cons_self
  have hfits := hblock.fits (by simp)
  have htext := hblock.text
  rw [varText_append, varText_cons, append_assoc, append_assoc] at htext
  rw [varText_append, varText_cons, length_append, length_append] at hfits
  obtain ⟨k, rfl⟩ : ∃ k, fuel = k + 1 + pre.length := ⟨fuel - pre.length - 1, by omega⟩
  have hhere := (contains_append.mp htext).2
  rw [fwSearch_append pre (fun v hv => hblock.no_equals v (mem_append_left _ hv)) hother
    _ htext (by omega),
    fwSearch_entry (hblock.no_equals _ (by simp)) hhere (by omega), if_pos rfl, zero_add]

/-- The value of an entry. -/
theorem load_value (hblock : Defines data envSize (pre ++ v :: post)) :
    load data ((varText pre).length + v.1.length + 1)
      ((varText pre).length + (varLine v).length - ((varText pre).length + v.1.length + 1)) =
      v.2.bytes := by
  have htext := hblock.text
  rw [varText_append, varText_cons] at htext
  simp only [varLine, append_assoc, cons_append, contains_append, zero_add] at htext
  have hlength : (varText pre).length + (varLine v).length -
      ((varText pre).length + v.1.length + 1) = v.2.bytes.length := by
    simp only [varLine, length_append, length_cons, CStr.length]
    omega
  rw [hlength]
  exact (contains_append.mp htext.2.2.2).1.load_eq

/-- In front of the last terminator there are no two of them. -/
theorem not_both_nul {a : ℕ} {c : UInt8} (hl : NoDoubleNul (c :: (l ++ [0])))
    (h : Contains data a (c :: (l ++ [0, 0]))) : ¬ (data a = 0 ∧ data (a + 1) = 0) := by
  obtain ⟨hc, hrest⟩ := h
  obtain ⟨d, l', hd⟩ : ∃ d l', l ++ [0] = d :: l' := exists_cons_of_ne_nil (by simp)
  have hdata : data (a + 1) = d := by
    have hsplit : l ++ [0, 0] = (l ++ [0]) ++ [0] := by simp
    rw [hsplit, hd] at hrest
    exact hrest.1
  rw [hd] at hl
  rw [hc, hdata]
  exact fun hboth => (isChain_cons_cons.mp hl).1.elim (· hboth.1) (· hboth.2)

/-- Entries up to two terminators are moved as they are. -/
theorem shiftDown_eq {nxt : ℕ} (hl : NoDoubleNul (l ++ [0])) (henv : env < nxt)
    (h : Contains data nxt (l ++ [0, 0])) (hfuel : l.length < fuel) :
    shiftDown fuel data env nxt = some (store data env (l ++ [0]), env + l.length) := by
  induction l generalizing fuel data env nxt with
  | nil =>
    obtain _ | fuel := fuel
    · omega
    obtain ⟨h0, h1, -⟩ := h
    have hnext : update data env (data nxt) (nxt + 1) = 0 := by
      rw [update_of_ne (by omega), h1]
    rw [shiftDown, update_self, if_pos ⟨h0, hnext⟩, h0, nil_append, store_singleton]
    rfl
  | cons c l ih =>
    rw [length_cons] at hfuel
    obtain _ | fuel := fuel
    · omega
    have hgo := not_both_nul hl h
    rw [← update_of_ne (f := data) (show nxt + 1 ≠ env by omega) (data nxt)] at hgo
    have hrest : Contains data (nxt + 1) (l ++ [0, 0]) := h.2
    have hmoved : Contains (update data env (data nxt)) (nxt + 1) (l ++ [0, 0]) :=
      hrest.congr fun i hi _ => update_of_ne (by omega) _ _
    have hrec := ih hl.tail (show env + 1 < nxt + 1 by omega) hmoved (by omega : l.length < fuel)
    rw [shiftDown, update_self, if_neg hgo, hrec, h.1, cons_append, store_cons, length_cons]
    congr 2
    omega

/-- What removing an entry leaves: the entries behind it, or two terminators. -/
theorem removeEntry_eq (hblock : Defines data envSize (pre ++ v :: post)) :
    removeEntry envSize data (varText pre).length ((varText pre).length + (varLine v).length) =
      some (store data (varText pre).length (if post = [] then [0, 0] else varText post ++ [0])) := by
  have hfits := hblock.fits (by simp)
  have htext := hblock.text
  rw [varText_append, varText_cons, append_assoc, append_assoc, contains_append, zero_add,
    contains_append] at htext
  rw [varText_append, varText_cons, length_append, length_append, length_cons] at hfits
  rw [removeEntry]
  set next := (varText pre).length + (varLine v).length + 1
  have hpost : Contains data next (varText post ++ [0]) := htext.2.2.2
  by_cases hne : post = []
  · have h0 : data next = 0 := by
      rw [hne] at hpost
      exact hpost.1
    rw [if_pos h0, if_pos hne, Option.map_some, store_cons, store_singleton]
  · obtain ⟨l, hl⟩ := exists_varText_eq hne
    have h0 : data next ≠ 0 := by
      obtain ⟨w, ws, rfl⟩ := exists_cons_of_ne_nil hne
      rw [varText_cons, append_assoc] at hpost
      exact head_varLine_ne (contains_append.mp hpost).1
    have hnd := noDoubleNul_varText post
    rw [hl] at hnd hpost hfits
    rw [append_assoc] at hpost
    rw [length_append] at hfits
    rw [if_neg h0, if_neg hne, shiftDown_eq hnd (by omega) hpost (by omega), hl,
      store_append _ _ (l ++ [0]), length_append, store_singleton]
    rfl

/-- The end of the block is at the last terminator of the entries. -/
theorem blockEnd_eq (hl : NoDoubleNul (l ++ [0])) (h : Contains data env (l ++ [0, 0]))
    (hfuel : l.length < fuel) : blockEnd data fuel env = some (env + l.length) := by
  induction l generalizing fuel env with
  | nil =>
    obtain _ | fuel := fuel
    · omega
    rw [blockEnd, if_pos ⟨h.1, h.2.1⟩]
    rfl
  | cons c l ih =>
    rw [length_cons] at hfuel
    obtain _ | fuel := fuel
    · omega
    rw [blockEnd, if_neg (not_both_nul hl h), ih hl.tail h.2 (by omega), length_cons]
    congr 1
    omega

variable (hblock : Defines data envSize vars)
include hblock

/-- Where a new definition goes: behind the others. -/
theorem exists_blockEnd :
    ∃ env, blockEnd data (envSize + 1) 0 = some env ∧ (if env > 0 then env + 1 else env) =
    (varText vars).length := by
  by_cases hne : vars = []
  · have htext := hblock.text
    rw [hne] at htext
    refine ⟨0, ?_, by simp [hne, varText]⟩
    rw [blockEnd, if_pos ⟨htext.1, hblock.empty hne⟩]
  · obtain ⟨l, hl⟩ := exists_varText_eq hne
    have hfits := hblock.fits hne
    have hnd := noDoubleNul_varText vars
    have htext := hblock.text
    rw [hl] at hnd htext hfits
    rw [append_assoc] at htext
    rw [length_append] at hfits
    refine ⟨l.length, by rw [blockEnd_eq hnd htext (by omega), zero_add], ?_⟩
    -- an entry is not empty, so its terminator is not at the front of the block
    have hpos : 0 < l.length := by
      obtain ⟨v, vs, rfl⟩ := exists_cons_of_ne_nil hne
      have hlen := congrArg List.length hl
      have hline := length_pos_iff.mpr (varLine_ne_nil v)
      rw [varText_cons, length_append, length_cons, length_append, length_singleton] at hlen
      omega
    rw [if_pos hpos, hl, length_append, length_singleton]

theorem appendEntry_eq (name value : CStr) :
    appendEntry envSize data name value =
      if (varText vars).length + ((varText [(name, value)]).length + 1) > envSize then .error data
      else .ok (store data (varText vars).length (varText [(name, value)] ++ [0])) := by
  obtain ⟨env, hend, henv⟩ := exists_blockEnd hblock
  have hlen : name.length + 2 + (value.length + 1) = (varText [(name, value)]).length + 1 := by
    simp [varText, varLine, CStr.length]
    omega
  have hline : name.bytes ++ 61 :: value.bytes ++ [0, 0] = varText [(name, value)] ++ [0] := by
    simp [varText, varLine]
  rw [appendEntry, hend]
  dsimp only
  rw [henv, hlen, hline]

theorem appendEntry_ok {data' : ℕ → UInt8}
    (hname : 61 ∉ name.bytes) (hnew : name ∉ vars.map Prod.fst)
    (h : appendEntry envSize data name value = .ok data') :
    Defines data' envSize (vars ++ [(name, value)]) ∧ ∀ i, envSize ≤ i → data' i = data i := by
  rw [appendEntry_eq hblock] at h
  split at h
  · cases h
  obtain rfl := FwResult.ok.inj h
  have hkept : Contains (store data (varText vars).length (varText [(name, value)] ++ [0]))
    0 (varText vars) :=
    (contains_append.mp hblock.text).1.congr fun i _ hi => store_of_outside _ _ _ (.inl (by omega))
  refine ⟨⟨?_, by simp, ?_, ?_, fun _ => ?_⟩, fun i hi => store_of_outside _ _ _ (.inr ?_)⟩
  · rw [varText_append, append_assoc, contains_append, zero_add]
    exact ⟨hkept, contains_store _ _ _⟩
  · exact forall_mem_append.mpr ⟨hblock.no_equals, forall_mem_singleton.mpr hname⟩
  · rw [map_append, nodup_append]
    refine ⟨hblock.nodup, by simp, ?_⟩
    intro a ha b hb
    rw [mem_singleton.mp hb]
    exact fun heq : a = name => hnew (heq ▸ ha)
  · rw [varText_append, length_append]
    omega
  · rw [length_append, length_singleton]
    omega

omit hblock

/-- Removing an entry removes the variable. -/
theorem defines_removed (hblock : Defines data envSize (pre ++ v :: post)) :
    ∃ data', removeEntry envSize data (varText pre).length
      ((varText pre).length + (varLine v).length) = some data' ∧
      Defines data' envSize (pre ++ post) ∧ ∀ i, envSize ≤ i → data' i = data i := by
  refine ⟨_, removeEntry_eq hblock, ⟨?_, ?_, ?_, ?_, fun _ => ?_⟩,
    fun i hi => store_of_outside _ _ _ (.inr ?_)⟩
  all_goals
    have hfits := hblock.fits (by simp)
    rw [varText_append, varText_cons, length_append, length_append, length_cons] at hfits
  · have htext := hblock.text
    rw [varText_append, append_assoc, contains_append] at htext
    rw [varText_append, append_assoc, contains_append, zero_add]
    refine ⟨htext.1.congr fun i _ hi => store_of_outside _ _ _ (.inl (by omega)), ?_⟩
    have hwritten := contains_store data (varText pre).length
      (if post = [] then [0, 0] else varText post ++ [0])
    by_cases hne : post = []
    · rw [if_pos hne] at hwritten ⊢
      rw [hne]
      exact ⟨hwritten.1, trivial⟩
    · rw [if_neg hne] at hwritten ⊢
      exact hwritten
  · intro hnil
    obtain ⟨rfl, rfl⟩ := append_eq_nil_iff.mp hnil
    exact (contains_store data 0 [0, 0]).2.1
  · intro w hw
    refine hblock.no_equals w ?_
    rcases mem_append.mp hw with hw | hw
    · exact mem_append_left _ hw
    · exact mem_append_right _ (mem_cons_of_mem _ hw)
  · have hnd := hblock.nodup
    rw [map_append] at hnd
    rw [map_append]
    exact hnd.sublist ((List.Sublist.refl _).append (sublist_cons_self _ _))
  · rw [varText_append, length_append]
    omega
  · split_ifs
    · exact hi.trans' (by rw [length_cons, length_singleton]; omega)
    · rw [length_append, length_singleton]
      omega

end Loops

/-! ## Calls -/

section Calls

variable {cfg : FwConfig} {data data' : ℕ → UInt8} {name : CStr} {value : Option CStr}
    {vars : List (CStr × CStr)}

theorem filter_eq_self_of_notMem (h : name ∉ vars.map Prod.fst) :
    vars.filter (·.1 ≠ name) = vars := by
  refine filter_eq_self.mpr fun w hw => ?_
  have hne : w.1 ≠ name := fun heq => h (heq ▸ mem_map_of_mem hw)
  simpa using hne

theorem filter_split {v : CStr} (hnd : ((pre ++ (name, v) :: post).map Prod.fst).Nodup) :
    (pre ++ (name, v) :: post).filter (·.1 ≠ name) = pre ++ post := by
  rw [map_append, map_cons, nodup_append, nodup_cons] at hnd
  obtain ⟨-, ⟨hpost, -⟩, hpre⟩ := hnd
  rw [filter_append, filter_cons_of_neg (by simp), filter_eq_self_of_notMem hpost,
    filter_eq_self_of_notMem fun hmem => hpre _ hmem _ mem_cons_self rfl]

theorem notMem_filter_ne : name ∉ (vars.filter (·.1 ≠ name)).map Prod.fst := by
  simp

theorem length_le_varText (vars : List (CStr × CStr)) : vars.length ≤ (varText vars).length := by
  induction vars with
  | nil => exact le_rfl
  | cons v vars ih =>
    rw [varText_cons, length_append, length_cons, length_cons]
    omega

/-- The variables take less room than the block. -/
theorem Block.length_lt {envSize : ℕ} (hblock : Block data envSize vars) (hsize : envSize ≠ 0) :
    vars.length < envSize := by
  by_cases hne : vars = []
  · rw [hne]
    exact Nat.pos_of_ne_zero hsize
  · exact (length_le_varText vars).trans_lt (hblock.fits hne)

theorem Defines.length_le {envSize : ℕ} (hblock : Defines data envSize vars) :
    vars.length ≤ envSize := by
  by_cases hne : vars = []
  · simp [hne]
  · exact le_trans (length_le_varText vars) ((hblock.fits hne).le)

theorem definedAs_of_notMem (h : name ∉ vars.map Prod.fst) : definedAs vars name = none := by
  rw [definedAs, find?_eq_none.mpr, Option.map_none]
  intro v hv heq
  exact h (of_decide_eq_true heq ▸ mem_map_of_mem hv)

theorem definedAs_split {v : CStr} (hnd : ((pre ++ (name, v) :: post).map Prod.fst).Nodup) :
    definedAs (pre ++ (name, v) :: post) name = some v := by
  rw [map_append, map_cons, nodup_append] at hnd
  have hpre : pre.find? (·.1 = name) = none := find?_eq_none.mpr fun w hw heq =>
    hnd.2.2 _ (mem_map_of_mem hw) _ mem_cons_self (of_decide_eq_true heq)
  rw [definedAs, find?_append, hpre, Option.none_or, find?_cons_of_pos (by simp), Option.map_some]

theorem deniesNondef_iff (name : CStr) {v : CStr × CStr}
    (hblock : Defines data cfg.envSize (pre ++ v :: post)) :
        deniesNondef cfg data name ((varText pre).length + v.1.length + 1)
        ((varText pre).length + (varLine v).length) = true ↔
      cfg.validateVaraccess data name .preventNondefOverwr = true ∧ v.2 ≠ (cfg.getdefenv name).getD ∅ := by
  rw [deniesNondef, load_value hblock, CStr.ofBytes_bytes, decide_eq_true_iff]

/-- What a call does: it is refused, or the old definition goes and the new one, if any, is put
behind the others. -/
theorem fwEnvWrite_cases (hblock : Defines data cfg.envSize vars) (name : CStr)
    (value : Option CStr) :
    Denied cfg data vars name value ∧ fwEnvWrite cfg data name value = .error data ∨
      ¬ Denied cfg data vars name value ∧
        ∃ data₁, Defines data₁ cfg.envSize (vars.filter (·.1 ≠ variableOf name)) ∧
          (∀ i, cfg.envSize ≤ i → data₁ i = data i) ∧
          (variableOf name ∉ vars.map Prod.fst → data₁ = data) ∧
          fwEnvWrite cfg data name value = (newValue value).elim (.ok data₁)
            (appendEntry cfg.envSize data₁ name) := by
  have hlen := hblock.length_le
  rw [fwEnvWrite, Denied]
  by_cases hmem : variableOf name ∈ vars.map Prod.fst
  · obtain ⟨⟨n, v⟩, hpair, rfl⟩ := mem_map.mp hmem
    obtain ⟨pre, post, rfl⟩ := append_of_mem hpair
    rw [length_append] at hlen
    obtain ⟨data₁, hremove, hblock₁, hsame⟩ := defines_removed hblock
    rw [fwSearch_found hblock (by omega), filter_split hblock.nodup, definedAs_split hblock.nodup]
    cases newValue value with
    | none =>
      dsimp only
      rw [hremove]
      split
      · next hdeny => exact .inl ⟨hdeny, rfl⟩
      · next hallow => exact .inr ⟨hallow, data₁, hblock₁, hsame, (absurd hmem ·), rfl⟩
    | some w =>
      have hold := deniesNondef_iff name hblock
      dsimp only
      rw [hremove]
      split_ifs with hoverwr hnondef
      · exact .inl ⟨.inl hoverwr, rfl⟩
      · exact .inl ⟨.inr (hold.mp hnondef), rfl⟩
      · exact .inr ⟨not_or.mpr ⟨hoverwr, mt hold.mpr hnondef⟩, data₁, hblock₁, hsame, (absurd hmem ·), rfl⟩
  · rw [fwSearch_notFound hblock hmem (by omega), filter_eq_self_of_notMem hmem, definedAs_of_notMem hmem]
    cases newValue value with
    | none => exact .inr ⟨not_false, data, hblock, fun _ _ => rfl, fun _ => rfl, rfl⟩
    | some w =>
      dsimp only
      split
      · next hdeny => exact .inl ⟨hdeny, rfl⟩
      · next hallow => exact .inr ⟨hallow, data, hblock, fun _ _ => rfl, fun _ => rfl, rfl⟩

/-- A call that returns 0 makes the assignment. -/
theorem defines_assign (hblock : Defines data cfg.envSize vars) (hname : 61 ∉ name.bytes)
    (h : fwEnvWrite cfg data name value = .ok data') :
    Defines data' cfg.envSize (assign vars name value) ∧ ∀ i, cfg.envSize ≤ i → data' i = data i := by
  rcases fwEnvWrite_cases hblock name value with ⟨-, herr⟩ | ⟨-, data₁, hblock₁, hsame, -, heq⟩
  · cases herr.symm.trans h
  rw [heq] at h
  rw [variableOf_eq_self hname] at hblock₁
  rw [assign]
  cases hv : newValue value with
  | none =>
    rw [hv] at h
    obtain rfl := FwResult.ok.inj h
    rw [Option.map_none, Option.toList_none, append_nil]
    exact ⟨hblock₁, hsame⟩
  | some w =>
    rw [hv] at h
    obtain ⟨hblock', hsame'⟩ := appendEntry_ok hblock₁ hname notMem_filter_ne h
    exact ⟨hblock', fun i hi => (hsame' i hi).trans (hsame i hi)⟩

end Calls

end UBoot.Env
