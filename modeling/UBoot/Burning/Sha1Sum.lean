import Mathlib.Algebra.Group.Int.Defs
import UBoot.Lib.Uuid
import Mathlib.Tactic.Tauto

/-!
# The SHA-1 check of a partition

`optimus_sha1sum` reads a partition in units of 64 MiB, passes them to the SHA-1 functions and
compares the digest as text. The text buffer also receives the state of the hash after every unit
but the last one, so for more than one unit the comparison is made with the state after the first
unit.
-/

namespace UBoot.Burning

open UBoot.Common UBoot.Lib List

/-- The functions of the SHA-1 library, taken as correct: a context is given by the bytes passed to
`sha1_update` since `sha1_starts`, `digest` is what `sha1_finish` makes of it, and `state` are the
words `ctx.state[0]` to `ctx.state[4]`. -/
structure Sha1 where
  digest : List UInt8 → List UInt8
  state : List UInt8 → List UInt32
  length_digest : ∀ l, (digest l).length = 20
  length_state : ∀ l, (state l).length = 5

/-- A word in the format `%08x`. -/
def hexWord (w : UInt32) : List UInt8 := (leBytes 4 w.toNat).reverse.flatMap hexByte

/-- `buffermax`. -/
def bufferMax : ℕ := 64 * 2 ^ 20

variable (p : Sha1) (part : ℕ → UInt8) (readOk : ℕ → ℕ → Bool)

/-- The loop over the units that are not the last one: the context, `sha1_value`, the offset and
what is left to be read. `readOk` is the outcome of `store_read_ops`. -/
def sha1Loop (ctx value : List UInt8) (offset need : ℕ) :
    Except ℤ (List UInt8 × List UInt8 × ℕ × ℕ) :=
  if bufferMax < need then
    if !readOk offset bufferMax then .error 228
    else
      let ctx' := ctx ++ load part offset bufferMax
      sha1Loop ctx' (value ++ (p.state ctx').flatMap hexWord) (offset + bufferMax) (need - bufferMax)
  else .ok (ctx, value, offset, need)
termination_by need
decreasing_by simp only [bufferMax] at *; omega

/-- `optimus_sha1sum` with the arguments of a partition: the return value. -/
def optimusSha1sum (verifyLen : ℕ) (sha1Verify : List UInt8) : ℤ :=
  match sha1Loop p part readOk [] [] 0 verifyLen with
  | .error e => e
  | .ok (ctx, value, offset, need) =>
    if !readOk offset need then 241
    else
      let output := p.digest (ctx ++ load part offset need)
      if sha1Verify.take 40 = (value ++ output.flatMap hexByte).take 40 then 0 else -1

/-! ## The text -/

theorem length_flatMap_hexWord (l : List UInt32) : (l.flatMap hexWord).length = 8 * l.length := by
  simp [hexWord, hexByte, mul_comm]

/-- The text of a hash state. -/
def stateText (ctx : List UInt8) : List UInt8 := (p.state ctx).flatMap hexWord

/-- A digit of the text reads as what it was written for. -/
theorem xdigitValue_hexChar {n : ℕ} (h : n < 16) : xdigitValue (hexChar n) = some n := by
  have hall : ∀ k : Fin 16, xdigitValue (hexChar k) = some k.val := by decide
  exact hall ⟨n, h⟩

theorem hexPairs_flatMap_hexByte (l : List UInt8) : hexPairs (l.flatMap hexByte) = l := by
  induction l with
  | nil => rfl
  | cons b l ih =>
    have hb := b.toNat_lt
    rw [flatMap_cons, hexByte, cons_append, cons_append, nil_append, hexPairs, ih,
      xdigitValue_hexChar (by omega), xdigitValue_hexChar (by omega), Option.getD_some, Option.getD_some,
      show b.toNat / 16 * 16 + b.toNat % 16 = b.toNat by omega, UInt8.ofNat_toNat]

/-- A sum is the text of a digest when it stands for it, in lower case. -/
theorem eq_flatMap_hexByte_iff {sum digest : List UInt8} (hlen : sum.length = 40)
    (hsum : ∀ c ∈ sum, isxdigit c = true) :
    sum = digest.flatMap hexByte ↔ hexPairs sum = digest ∧ sum.map lower = sum := by
  have htext := (hexBytes_hexPairs 20 sum hlen hsum).1
  constructor
  · intro h
    have hpairs : hexPairs sum = digest := by rw [h, hexPairs_flatMap_hexByte]
    rw [hpairs] at htext
    exact ⟨hpairs, by rw [← htext, ← h]⟩
  · rintro ⟨rfl, hlower⟩
    rw [htext, hlower]

/-! ## The loop -/

variable {p part readOk}

/-- One round of the loop. -/
theorem sha1Loop_of_lt (hread : ∀ offset size, readOk offset size) (ctx value : List UInt8)
    (offset : ℕ) {need : ℕ} (hlt : bufferMax < need) :
    sha1Loop p part readOk ctx value offset need = sha1Loop p part readOk
        (ctx ++ load part offset bufferMax)
        (value ++ stateText p (ctx ++ load part offset bufferMax)) (offset + bufferMax)
          (need - bufferMax) := by
  rw [sha1Loop, if_pos hlt, hread, Bool.not_true, if_neg Bool.false_ne_true]
  simp only [stateText]

theorem sha1Loop_of_le (ctx value : List UInt8) (offset : ℕ) {need : ℕ} (hle : need ≤ bufferMax) :
    sha1Loop p part readOk ctx value offset need = .ok (ctx, value, offset, need) := by
  rw [sha1Loop, if_neg (Nat.not_lt.mpr hle)]

section

variable (hread : ∀ offset size, readOk offset size)

include hread

/-- What is in the text buffer stays at its start. -/
theorem sha1Loop_value (ctx value : List UInt8) (offset need : ℕ) :
    ∃ ctx' more offset' need',
      sha1Loop p part readOk ctx value offset need = .ok (ctx', value ++ more, offset', need') := by
  induction need using Nat.strongRecOn generalizing ctx value offset with
  | _ need ih =>
    rcases Nat.lt_or_ge bufferMax need with hlt | hle
    · obtain ⟨ctx', more, offset', need', h⟩ := ih (need - bufferMax) (by rw [bufferMax] at *; omega)
        (ctx ++ load part offset bufferMax) (value ++ stateText p (ctx ++ load part offset bufferMax))
        (offset + bufferMax)
      exact ⟨ctx', _, offset', need', by rw [sha1Loop_of_lt hread ctx value offset hlt, h, append_assoc]⟩
    · exact ⟨ctx, [], offset, need, by rw [sha1Loop_of_le ctx value offset hle, append_nil]⟩

/-- One unit: the digest is compared. -/
theorem optimusSha1sum_short {verifyLen : ℕ} {sum : List UInt8} (hle : verifyLen ≤ bufferMax)
    (hlen : sum.length = 40) : optimusSha1sum p part readOk verifyLen sum = 0 ↔
    sum = (p.digest (load part 0 verifyLen)).flatMap hexByte := by
  have htext : ((p.digest (load part 0 verifyLen)).flatMap hexByte).length = 40 := by
    rw [length_flatMap_hexByte, p.length_digest]
  rw [optimusSha1sum, sha1Loop_of_le _ _ _ hle]
  dsimp only
  rw [hread, Bool.not_true, if_neg Bool.false_ne_true, nil_append, nil_append,
    take_of_length_le (Nat.le_of_eq hlen), take_of_length_le (Nat.le_of_eq htext)]
  split <;> simpa

/-- Several units: the state after the first one is compared. -/
theorem optimusSha1sum_long {verifyLen : ℕ} {sum : List UInt8} (hlt : bufferMax < verifyLen)
    (hlen : sum.length = 40) : optimusSha1sum p part readOk verifyLen sum = 0 ↔
    sum = stateText p (load part 0 bufferMax) := by
  obtain ⟨ctx, more, offset, need, hloop⟩ := sha1Loop_value hread (load part 0 bufferMax)
    (stateText p (load part 0 bufferMax)) (0 + bufferMax) (verifyLen - bufferMax)
  rw [optimusSha1sum, sha1Loop_of_lt hread _ _ _ hlt, nil_append, nil_append, hloop]
  dsimp only
  rw [hread, Bool.not_true, if_neg Bool.false_ne_true, take_of_length_le (Nat.le_of_eq hlen),
    append_assoc, take_left' (by rw [stateText, length_flatMap_hexWord, p.length_state])]
  split <;> simpa

end

/-- The check accepts a sum exactly when it is the SHA-1 of the first bytes of the partition. -/
def Exact (p : Sha1) (part : ℕ → UInt8) (readOk : ℕ → ℕ → Bool) (verifyLen : ℕ) (sum : List UInt8) :
    Prop :=
  optimusSha1sum p part readOk verifyLen sum = 0 ↔ hexPairs sum = p.digest (load part 0 verifyLen)

/-- The check is exact for one unit, unless the right sum is given in capital letters. For several
units it is exact only where the sum is both the right one and the text of the state after the first
unit, or neither. -/
theorem exact_iff (hread : ∀ offset size, readOk offset size) (verifyLen : ℕ) {sum : List UInt8}
    (hlen : sum.length = 40) (hsum : ∀ c ∈ sum, isxdigit c = true) :
    Exact p part readOk verifyLen sum ↔
      (verifyLen ≤ bufferMax ∧ (hexPairs sum = p.digest (load part 0 verifyLen) → sum.map lower = sum)) ∨
      (bufferMax < verifyLen ∧
        (sum = stateText p (load part 0 bufferMax) ↔
        hexPairs sum = p.digest (load part 0 verifyLen))) := by
  rw [Exact]
  rcases Nat.lt_or_ge bufferMax verifyLen with hlt | hle
  · rw [optimusSha1sum_long hread hlt hlen]
    simp [hlt, Nat.not_le.mpr hlt]
  · rw [optimusSha1sum_short hread hle hlen, eq_flatMap_hexByte_iff hlen hsum]
    simp only [Nat.not_lt.mpr hle]
    tauto

/-- The sum and the number of the bytes, in place of a hash. -/
def checksums (l : List UInt8) : List UInt32 :=
  [.ofNat (l.foldl (· + ·.toNat) 0), .ofNat l.length, 0, 0, 0]

def checksumSha1 : Sha1 where
  digest l := (checksums l).flatMap fun w => (leBytes 4 w.toNat).reverse
  state := checksums
  length_digest _ := by simp [checksums]
  length_state _ := rfl

theorem digest_checksumSha1 (l : List UInt8) :
    (checksumSha1.digest l).flatMap hexByte = stateText checksumSha1 l := by
  rw [checksumSha1, stateText, flatMap_assoc]
  rfl

theorem exact_checksumSha1 :
    Exact checksumSha1 UInt8.ofNat (fun _ _ => true) 3 ((checksumSha1.digest [0, 1, 2]).flatMap hexByte) :=
  (exact_iff (fun _ _ => rfl) 3 (by decide) (by decide +kernel)).mpr
    (.inl ⟨by decide, fun _ => by decide +kernel⟩)

/-- One byte more than a unit, with the right sum: it is refused. -/
theorem not_exact_checksumSha1 :
    ¬ Exact checksumSha1 (fun _ => 0) (fun _ _ => true) (bufferMax + 1)
      ((checksumSha1.digest (load (fun _ => 0) 0 (bufferMax + 1))).flatMap hexByte) := by
  intro h
  have hzero := h.mpr (hexPairs_flatMap_hexByte _)
  rw [optimusSha1sum_long (fun _ _ => rfl) (Nat.lt_succ_self _)
    (by rw [length_flatMap_hexByte, checksumSha1.length_digest]), digest_checksumSha1] at hzero
  -- the second word of the text
  have hword := congrArg (fun text => (text.drop 8).take 8) hzero
  have hlen : ∀ w, (hexWord w).length = 8 := fun w => by simp [hexWord, hexByte]
  simp only [stateText, checksumSha1, checksums, flatMap_cons, length_load, drop_left' (hlen _),
    take_left' (hlen _)] at hword
  exact absurd hword (by decide +kernel)

end UBoot.Burning
