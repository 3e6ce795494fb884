import UBoot.Env.FwEnv
import UBoot.Env.HashtableMatch

/-!
# The boot loader and the tool

Reference: `tools/env/fw_env.c::fw_env_write`, `lib/hashtable.c::himport_r`.

The tool writes the bytes of names and values as they are. The parse loop of `himport_r` skips
blanks in front of a name, takes a name with `#` in front for a comment, and takes a backslash for
an escape, also in a block whose entries are separated by NUL.
-/

namespace UBoot.Env

open UBoot.Common List Function

variable {κ γ : Type} {hk : Hooks κ γ}

/-! ## What the parse loop makes of a variable -/

variable {v : CStr × CStr} {name value : CStr}

section Found

variable {htab : Htab κ} {key data : CStr} {vars : List (CStr × CStr)}

/-- Every entry of the table is one of the variables. -/
def Htab.EnteredFrom (htab : Htab κ) (vars : List (CStr × CStr)) : Prop :=
  ∀ i, (htab.table i).used ≠ 0 → ((htab.table i).entry.key, (htab.table i).entry.data) ∈ vars

theorem Htab.EnteredFrom.of_sameLayout {htab' : Htab κ} (h : htab.EnteredFrom vars)
    (hl : SameLayout htab htab') : htab'.EnteredFrom vars := by
  intro i hi
  rw [hl.used] at hi
  rw [hl.key, hl.data]
  exact h i hi

end Found

/-! ## Entering variables -/

section Enter

variable {s : State κ γ} {key data : CStr} {flag : ℕ} {vars : List (CStr × CStr)} (hp : hk.Permissive)
include hp

end Enter

/-! ## Importing a block -/

section ImportBlock

variable {flag fuel : ℕ} {s s' : State κ γ} {vars : List (CStr × CStr)} {rest : List UInt8}

/-- The bytes of a block that holds variables. -/
theorem Block.load_eq {data : ℕ → UInt8} {envSize : ℕ} (hblock : Block data envSize vars)
    (hsize : envSize ≠ 0) : ∃ rest, load data 0 envSize = varText vars ++ 0 :: rest ∧
    (vars = [] → ∀ c ∈ rest.head?, c = 0) := by
  have hlen : (varText vars ++ [0]).length ≤ envSize := by
    rw [length_append]
    by_cases hne : vars = []
    · rw [hne]
      exact Nat.one_le_iff_ne_zero.mpr hsize
    · exact hblock.fits hne
  obtain ⟨k, hk⟩ := Nat.exists_eq_add_of_le hlen
  refine ⟨load data (varText vars ++ [0]).length k, ?_, fun hnil c hc => ?_⟩
  · rw [hk, ← load_append, zero_add, hblock.text.load_eq, append_assoc]
    rfl
  · rcases k with _ | k
    · exact absurd hc (by simp [load])
    have hhead : (load data (varText vars ++ [0]).length (k + 1)).head? = some (data 1) := by
      rw [hnil]
      simp [load, varText, range_succ_eq_map]
    rw [hhead] at hc
    rw [← Option.some.inj hc]
    exact hblock.empty hnil

end ImportBlock

/-! ## The tool and the boot loader -/

section Agree

variable {cfg : FwConfig} {data data' : ℕ → UInt8} {calls : List (CStr × Option CStr)}

end Agree

end UBoot.Env
