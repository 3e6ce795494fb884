import Mathlib.Data.UInt
import UBoot.Common.Memory
import UBoot.Env.RoundTrip

/-!
# Looking up a variable before and after relocation

Reference: `common/cmd_nvedit.c::getenv_f`, `common/cmd_nvedit.c::envmatch`,
`common/env_common.c::env_export`, `common/env_common.c::env_import`.

Before the environment is imported, `getenv_f` scans the stored block itself and copies the bytes
behind `name=` up to the next NUL. It knows nothing of escapes, so it hands out the backslashes that
`hexport_r` put in front of backslashes.

The block is read through `env_get_char`, a function of the index. `CONFIG_ENV_SIZE` is a parameter;
the checksum function is one too, since only its being a function matters.
-/

namespace UBoot.Env

open UBoot.Common List

/-! ## The source -/

/-- What `envmatch` returns. -/
inductive EnvMatch where
  /-- the index of the value -/
  | value (i : ℕ)
  /-- -1 -/
  | mismatch
  /-- name and block both end, and the comparison goes on behind the end of the name -/
  | overrun
deriving DecidableEq

section

variable (envGetChar : ℕ → UInt8) (configEnvSize : ℕ)

/-- `envmatch` on the bytes of the name and the index of an entry. -/
def envmatch : List UInt8 → ℕ → EnvMatch
  | [], i₂ =>
    if envGetChar i₂ = 0 then .overrun
    else if envGetChar i₂ = 61 then .value (i₂ + 1)
    else .mismatch
  | c :: s₁, i₂ =>
    if c = envGetChar i₂ then
      if c = 61 then .value (i₂ + 1) else envmatch s₁ (i₂ + 1)
    else .mismatch

/-- The loop that looks for the end of an entry. It runs at most to index `configEnvSize`. -/
def entryEnd : ℕ → ℕ → Option ℕ
  | 0, _ => none
  | fuel + 1, nxt =>
    if envGetChar nxt = 0 then some nxt
    else if nxt ≥ configEnvSize then none
    else entryEnd fuel (nxt + 1)

/-- The outcome of `getenv_f`. -/
inductive GetenvF where
  /-- returns `n`; the buffer starts with the bytes `buf` -/
  | copied (n : ℕ) (buf : List UInt8)
  /-- returns -1 -/
  | notFound
  /-- reads behind the end of the name -/
  | overrun
deriving DecidableEq

end

variable {κ γ : Type}

/-- `ENV_SIZE`: the block without its checksum. -/
def envSize (configEnvSize : ℕ) : ℕ := configEnvSize - 4

variable {configEnvSize len : ℕ} {name : CStr} {list : List (Entry κ)} {htab : Htab κ}

/-! ## Scanning an exported block -/

section Scan

variable {envGetChar : ℕ → UInt8} {i fuel val : ℕ} {l : List UInt8}

theorem entryEnd_eq (hl : 0 ∉ l) (h : Contains envGetChar i (l ++ [0]))
    (hsize : i + l.length ≤ configEnvSize) (hfuel : l.length < fuel) :
    entryEnd envGetChar configEnvSize fuel i = some (i + l.length) := by
  induction l generalizing i fuel with
  | nil =>
    obtain _ | fuel := fuel
    · omega
    rw [entryEnd, if_pos h.1]
    rfl
  | cons c l ih =>
    rw [length_cons] at hsize hfuel
    obtain _ | fuel := fuel
    · omega
    have hc : envGetChar i ≠ 0 := fun h0 => hl (by rw [← h0, h.1]; exact mem_cons_self)
    rw [entryEnd, if_neg hc, if_neg (by omega),
      ih (fun h0 => hl (mem_cons_of_mem c h0)) h.2 (by omega) (by omega), length_cons]
    congr 1
    omega

/-- What `getenv_f` does with a value it has found, given its bytes in the block. -/
def copied (raw : List UInt8) (len : ℕ) : GetenvF :=
  if raw.length < len then .copied raw.length (raw ++ [0])
  else .copied len (if len ≠ 0 then raw.take (len - 1) ++ [0] else [])

/-- `envmatch` compares the name, up to a `=` in it, with the key of an entry. -/
theorem envmatch_eq {name key rest : List UInt8} (hkey : 61 ∉ key) (hnul : 0 ∉ key)
    (h : Contains envGetChar i (key ++ 61 :: rest)) :
    envmatch envGetChar name i = if name.takeWhile (· ≠ 61) = key then .value
      (i + key.length + 1) else .mismatch := by
  induction key generalizing name i with
  | nil =>
    have h61 : envGetChar i = 61 := h.1
    cases name with
    | nil => simp [envmatch, h61]
    | cons c name => by_cases hc : c = 61 <;> simp [envmatch, h61, hc]
  | cons k key ih =>
    have hk : envGetChar i = k := h.1
    have hk61 : k ≠ 61 := fun heq => hkey (heq ▸ mem_cons_self)
    have hk0 : k ≠ 0 := fun heq => hnul (heq ▸ mem_cons_self)
    rcases name with _ | ⟨c, name⟩
    · simp [envmatch, hk, hk61, hk0]
    rw [envmatch, hk]
    by_cases hc : c = k
    · subst hc
      rw [if_pos rfl, if_neg hk61, ih (fun h' => hkey (mem_cons_of_mem c h'))
        (fun h' => hnul (mem_cons_of_mem c h')) h.2,
        takeWhile_cons_of_pos (by simpa using hk61), length_cons,
        show i + 1 + key.length + 1 = i + (key.length + 1) + 1 by omega]
      simp only [cons.injEq, true_and]
    · rw [if_neg hc]
      rw [takeWhile_cons]
      split <;> simp [hc]

/-- The part of a name that `getenv_f` looks for: everything in front of a `=`. -/
def variableOf (name : CStr) : CStr := .ofBytes (name.bytes.takeWhile (· ≠ 61))

theorem bytes_variableOf (name : CStr) : (variableOf name).bytes = name.bytes.takeWhile (· ≠ 61) :=
  CStr.bytes_ofBytes fun h => name.nul_free ((takeWhile_sublist _).mem h)

theorem variableOf_eq_self (h : 61 ∉ name.bytes) : variableOf name = name := by
  apply CStr.ext
  rw [bytes_variableOf, takeWhile_eq_self_iff]
  intro c hc
  have hne : c ≠ 61 := fun heq => h (heq ▸ hc)
  simpa using hne

end Scan

/-! ## Before and after agree -/

end UBoot.Env
