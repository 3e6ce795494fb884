import Mathlib.Data.List.Basic
import Mathlib.Data.List.TakeWhile

/-!
# NUL-terminated strings

A C string is the run of bytes in front of the first NUL. `CStr` carries that invariant, so a string
with an embedded terminator cannot be built, and `strcmp a b == 0` is equality of values.
-/

namespace UBoot.Common

open List

/-- A text in front of the first character of a kind. -/
theorem takeWhile_ne {c : UInt8} {l : List UInt8} (h : c ∉ l) (rest : List UInt8) :
    (l ++ c :: rest).takeWhile (· ≠ c) = l ∧ (l ++ c :: rest).dropWhile (· ≠ c) = c :: rest := by
  have hall : ∀ b ∈ l, decide (b ≠ c) = true := fun b hb => decide_eq_true fun hbc => h (hbc ▸ hb)
  rw [takeWhile_append_of_pos hall, dropWhile_append_of_pos hall]
  simp

/-- A NUL-terminated string: its bytes, none of them the terminator. -/
structure CStr where
  bytes : List UInt8
  nul_free : 0 ∉ bytes
deriving DecidableEq

namespace CStr

@[ext] theorem ext {s t : CStr} (h : s.bytes = t.bytes) : s = t := by
  cases s; cases t; simp_all

/-- The string stored at the front of a byte buffer: everything before the first NUL. -/
def ofBytes (l : List UInt8) : CStr where
  bytes := l.takeWhile (· ≠ 0)
  nul_free := fun h => by
    have h0 := List.mem_takeWhile_imp h
    simp at h0

/-- `strlen`. -/
def length (s : CStr) : ℕ := s.bytes.length

instance : EmptyCollection CStr := ⟨⟨[], by simp⟩⟩

instance : Inhabited CStr := ⟨∅⟩

theorem ne_nul (s : CStr) {b : UInt8} (h : b ∈ s.bytes) : b ≠ 0 := fun hb => s.nul_free (hb ▸ h)

/-- Reading back a string without NUL bytes gives the string. -/
theorem ofBytes_bytes (s : CStr) : ofBytes s.bytes = s := by
  apply ext
  simp only [ofBytes]
  rw [takeWhile_eq_self_iff]
  intro b hb
  simpa using s.ne_nul hb

theorem bytes_ofBytes {l : List UInt8} (h : 0 ∉ l) :
    (ofBytes l).bytes = l := congrArg bytes (ofBytes_bytes ⟨l, h⟩)

end CStr

end UBoot.Common
