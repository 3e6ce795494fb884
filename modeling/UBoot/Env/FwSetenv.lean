import UBoot.Env.FwEnv

/-!
# The command that sets a variable

Reference: `tools/env/fw_env.c::fw_setenv`, `tools/env/fw_env.c::fw_env_write`.

`fw_setenv` changes the block in memory and hands it to `fw_env_close`, which writes it to the
flash. The option `-a` and `fw_env_open` come before the part that is modelled.
-/

namespace UBoot.Env

open UBoot.Common List

/-- What `fw_setenv` uses. `validateEnvSetParams` is true if the parameters are refused,
`fwEnvClose` gives the status of writing a block back. -/
structure FwHost where
  cfg : FwConfig
  validateEnvSetParams : List CStr → Bool
  fwEnvClose : (ℕ → UInt8) → ℤ

/-- The values of the command line, with blanks between them. -/
def joinValues (vals : List CStr) : Option CStr :=
  if vals = [] then none else some (.ofBytes (intercalate [32] (vals.map CStr.bytes)))

/-- `fw_setenv` behind `fw_env_open`: the status, and the block handed to `fw_env_close`. -/
def fwSetenv (host : FwHost) (data : ℕ → UInt8) (name : CStr) (vals : List CStr) :
    Option (ℤ × Option (ℕ → UInt8)) :=
  if host.validateEnvSetParams (name :: vals) then some (1, none)
  else
    match fwEnvWrite host.cfg data name (joinValues vals) with
    | .ok data => some (host.fwEnvClose data, some data)
    | .error data => some (host.fwEnvClose data, some data)
    | .runaway => none

/-- A definition is found, with its value. -/
def Found (data : ℕ → UInt8) (envSize : ℕ) (v : CStr × CStr) : Prop :=
  ∃ env nxt oldval, fwSearch data envSize v.1 (envSize + 1) 0 = .found env nxt oldval ∧
    load data oldval (nxt - oldval) = v.2.bytes

/-- A change that is not made loses no definition, is reported, and no other block is stored. -/
def ReportsRefusal (host : FwHost) (data : ℕ → UInt8) (vars : List (CStr × CStr)) (name : CStr)
    (vals : List CStr) : Prop :=
  (∀ data', fwEnvWrite host.cfg data name (joinValues vals) ≠ .ok data') →
    ∃ data', fwEnvWrite host.cfg data name (joinValues vals) = .error data' ∧
      (∀ v ∈ vars, Found data' host.cfg.envSize v) ∧
      ∃ status stored, fwSetenv host data name vals = some (status, stored) ∧ status ≠ 0 ∧
        ∀ block ∈ stored, block = data

/-- The new definition does not fit behind the other ones. -/
def Overflows (envSize : ℕ) (vars : List (CStr × CStr)) (name : CStr) (value : Option CStr) :
    Prop :=
  ∃ v ∈ newValue value, envSize < (varText (vars.filter (·.1 ≠ variableOf name))).length +
    name.length + v.length + 3

section Refusal

variable {host : FwHost} {cfg : FwConfig} {data : ℕ → UInt8} {envSize : ℕ}
  {vars : List (CStr × CStr)} {name : CStr} {vals : List CStr}

theorem Defines.found (hblock : Defines data envSize vars) {v : CStr × CStr} (hv : v ∈ vars) :
    Found data envSize v := by
  have hlen := hblock.length_le
  have hvar := variableOf_eq_self (hblock.no_equals v hv)
  obtain ⟨pre, post, rfl⟩ := append_of_mem hv
  rw [length_append] at hlen
  have hsplit : pre ++ v :: post = pre ++ (variableOf v.1, v.2) :: post := by rw [hvar]
  rw [hsplit] at hblock
  exact ⟨_, _, _, fwSearch_found hblock (by omega), load_value hblock⟩

/-- A call that returns 0 is a map update of the block, inside of the area of the environment. -/
theorem fwEnvWrite_updates {data' : ℕ → UInt8} {value : Option CStr}
    (hblock : Defines data cfg.envSize vars) (hname : 61 ∉ name.bytes)
    (h : fwEnvWrite cfg data name value = .ok data') :
    Defines data' cfg.envSize (assign vars name value) ∧
      (∀ v ∈ assign vars name value, Found data' cfg.envSize v) ∧ ∀ i, cfg.envSize ≤ i →
      data' i = data i := by
  obtain ⟨hblock', hsame⟩ := defines_assign hblock hname h
  exact ⟨hblock', fun v hv => hblock'.found hv, hsame⟩

/-- A call fails if the change is denied, with the block as it was, or if there is no room for the
definition, with the old one lost. -/
theorem fwEnvWrite_error (hblock : Defines data cfg.envSize vars) (name : CStr)
    (value : Option CStr) :
    (¬ Denied cfg data vars name value ∧ ¬ Overflows cfg.envSize vars name value ∧
        ∃ data', fwEnvWrite cfg data name value = .ok data') ∨
      ((Denied cfg data vars name value ∨
          Overflows cfg.envSize vars name value ∧ variableOf name ∉ vars.map Prod.fst) ∧
        fwEnvWrite cfg data name value = .error data) ∨
      (¬ Denied cfg data vars name value ∧ Overflows cfg.envSize vars name value ∧
        variableOf name ∈ vars.map Prod.fst ∧
        ∃ data', fwEnvWrite cfg data name value = .error data' ∧
          ∃ v ∈ vars, ¬ Found data' cfg.envSize v) := by
  rcases fwEnvWrite_cases hblock name value with ⟨hdeny, herr⟩ | ⟨hallow, data₁, hblock₁, -, hnew, heq⟩
  · exact .inr (.inl ⟨.inl hdeny, herr⟩)
  rw [heq, Overflows]
  rcases newValue value with _ | w
  · exact .inl ⟨hallow, by simp, data₁, rfl⟩
  have hlen : (varText [(name, w)]).length + 1 = name.length + w.length + 3 := by
    simp [varText, varLine, CStr.length]
    omega
  rw [Option.elim_some, appendEntry_eq hblock₁, hlen]
  split
  · next hover =>
    by_cases hmem : variableOf name ∈ vars.map Prod.fst
    · obtain ⟨v, hv, hkey⟩ := mem_map.mp hmem
      refine .inr (.inr ⟨hallow, ⟨w, rfl, by omega⟩, hmem, data₁, rfl, v, hv, ?_⟩)
      rintro ⟨env, nxt, oldval, hfound, -⟩
      rw [← hkey, ← variableOf_eq_self (hblock.no_equals v hv)] at hblock₁
      have hlen := hblock₁.length_le
      rw [fwSearch_notFound hblock₁ notMem_filter_ne (by omega)] at hfound
      cases hfound
    · exact .inr (.inl ⟨.inr ⟨⟨w, rfl, by omega⟩, hmem⟩, by rw [hnew hmem]⟩)
  · next hroom =>
    refine .inl ⟨hallow, ?_, _, rfl⟩
    rintro ⟨v, hv, hlt⟩
    obtain rfl := Option.some.inj hv
    omega

/-- A machine with 8 bytes for the environment, which denies nothing and can write its flash. -/
def writable : FwHost := ⟨⟨8, fun _ _ _ => false, fun _ => none⟩, fun _ => false, fun _ => 0⟩

/-- The block with `a=x`. -/
def blockAX : ℕ → UInt8 := fun i => [97, 61, 120].getD i 0

/-- The block with `a=x` and `b=y`. -/
def blockAXBY : ℕ → UInt8 := fun i => [97, 61, 120, 0, 98, 61, 121].getD i 0

/-- `a` gets the value `zz` and is then defined behind `b`. -/
theorem fwEnvWrite_updates_overwrite :
    ∃ data', fwEnvWrite ⟨16, fun _ _ _ => false, fun _ => none⟩ blockAXBY (.ofBytes [97])
        (some (.ofBytes [122, 122])) = .ok data' ∧
      Defines data' 16 [(.ofBytes [98], .ofBytes [121]), (.ofBytes [97], .ofBytes [122, 122])] := by
  obtain ⟨data', h⟩ : ∃ data', fwEnvWrite ⟨16, fun _ _ _ => false, fun _ => none⟩
      blockAXBY (.ofBytes [97]) (some (.ofBytes [122, 122])) = .ok data' := ⟨_, rfl⟩
  have hblock : Defines blockAXBY 16 [(.ofBytes [97], .ofBytes [120]), (.ofBytes [98], .ofBytes [121])] :=
    ⟨⟨rfl, rfl, rfl, rfl, rfl, rfl, rfl, rfl, rfl, trivial⟩, by simp, by decide, by decide, by decide⟩
  have hassign := (fwEnvWrite_updates hblock (by decide) h).1
  exact ⟨data', h, hassign⟩

/-- A refusal is reported exactly if there is none, because the access flags allow the change and
the definition fits, or if nothing is lost, because they do not or the name is new, and the block is
not written back. -/
theorem reportsRefusal_iff (hblock : Defines data host.cfg.envSize vars) :
    ReportsRefusal host data vars name vals ↔
      (¬ Denied host.cfg data vars name (joinValues vals) ∧ ¬ Overflows host.cfg.envSize vars name
        (joinValues vals)) ∨ (Denied host.cfg data vars name (joinValues vals) ∨
          variableOf name ∉ vars.map Prod.fst) ∧
          (host.validateEnvSetParams (name :: vals) = true ∨ host.fwEnvClose data ≠ 0) := by
  rw [ReportsRefusal, fwSetenv]
  rcases fwEnvWrite_error hblock name (joinValues vals) with ⟨hallow, hroom, data',
    hok⟩ | ⟨hwhy, herr⟩ | ⟨hallow, hover, hmem, data', herr, v, hv, hlost⟩
  · exact iff_of_true (fun h => absurd hok (h data')) (.inl ⟨hallow, hroom⟩)
  · have hsame : Denied host.cfg data vars name (joinValues vals) ∨ variableOf name ∉ vars.map Prod.fst :=
      hwhy.imp_right And.right
    have hnot : ¬ (¬ Denied host.cfg data vars name (joinValues vals) ∧
        ¬ Overflows host.cfg.envSize vars name (joinValues vals)) :=
      fun h => hwhy.elim h.1 fun hover => h.2 hover.1
    have hfound : ∀ n v, (n, v) ∈ vars → Found data host.cfg.envSize (n, v) :=
      fun n v hv => hblock.found hv
    rw [herr, or_iff_right hnot, and_iff_right hsame]
    by_cases hval : host.validateEnvSetParams (name :: vals) = true
    · simpa [hval] using hfound
    · simpa [hval] using fun _ => hfound
  · rw [herr]
    refine iff_of_false ?_ ?_
    · intro h
      obtain ⟨data'', heq, hall, -⟩ := h fun _ => by simp
      exact hlost (FwResult.error.inj heq ▸ hall v hv)
    · rintro (⟨-, h⟩ | ⟨h, -⟩)
      · exact h hover
      · exact h.elim hallow (· hmem)

/-- The same value again can be set. -/
theorem reportsRefusal_iff_blockAX :
    ReportsRefusal writable blockAX [(.ofBytes [97], .ofBytes [120])] (.ofBytes [97])
    [.ofBytes [120]] := by
  have hblock : Defines blockAX writable.cfg.envSize [(.ofBytes [97], .ofBytes [120])] :=
    ⟨⟨rfl, rfl, rfl, rfl, rfl, trivial⟩, by simp, by decide, by decide, by decide⟩
  refine (reportsRefusal_iff hblock).mpr (.inl ⟨?_, ?_⟩)
  · show ¬ (_ ∨ _ ∧ _)
    simp [writable]
  · rintro ⟨v, hv, hlt⟩
    obtain rfl := Option.some.inj hv
    exact absurd hlt (by decide)

/-- A longer value of `a` does not fit: its old value is gone, and the command succeeds. -/
theorem not_reportsRefusal_blockAX :
    ¬ ReportsRefusal writable blockAX [(.ofBytes [97], .ofBytes [120])] (.ofBytes [97])
    [.ofBytes [1, 1, 1, 1, 1]] := by
  intro h
  obtain ⟨_, -, -, status, _, hset, hstatus, -⟩ := h fun _ hok => by cases hok
  cases hset
  exact hstatus rfl

end Refusal

end UBoot.Env
