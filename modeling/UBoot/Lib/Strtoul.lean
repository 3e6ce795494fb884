import Mathlib.Algebra.Group.Nat.Defs

/-!
# Numbers in texts

`simple_strtoul` and `simple_strtoull`, which are the same on a machine of 64 bits.
-/

namespace UBoot.Lib

open List

/-- The value of a hexadecimal digit. -/
def xdigitValue (b : UInt8) : Option ℕ :=
  if 48 ≤ b ∧ b ≤ 57 then some (b.toNat - 48)
  else if 65 ≤ b ∧ b ≤ 70 then some (b.toNat - 55)
  else if 97 ≤ b ∧ b ≤ 102 then some (b.toNat - 87)
  else none

/-- `isxdigit`. -/
def isxdigit (b : UInt8) : Bool := (xdigitValue b).isSome

/-- The digits at the front of a text: their value, and the text behind them. -/
def readNumber (base : ℕ) : ℕ → List UInt8 → ℕ × List UInt8
  | acc, [] => (acc, [])
  | acc, b :: p =>
    match xdigitValue b with
    | some v => if v < base then readNumber base ((acc * base + v) % 2 ^ 64) p else (acc, b :: p)
    | none => (acc, b :: p)

/-- `simple_strtoul`: the value, and the text behind it. -/
def simpleStrtoul (base : ℕ) : List UInt8 → ℕ × List UInt8
  | 48 :: 120 :: b :: p =>
    if isxdigit b then readNumber 16 0 (b :: p) else readNumber (if base = 0 then 8 else base) 0
      (120 :: b :: p)
  | 48 :: p => readNumber (if base = 0 then 8 else base) 0 p
  | p => readNumber (if base = 0 then 10 else base) 0 p

/-! ### Hexadecimal digits -/

/-- The value of hexadecimal digits, after those with value `acc`. -/
def hexValue (acc : ℕ) (ds : List UInt8) :
    ℕ := ds.foldl (fun a b => a * 16 + (xdigitValue b).getD 0) acc

theorem hexValue_cons (acc : ℕ) (b : UInt8) (ds : List UInt8) :
    hexValue acc (b :: ds) = hexValue (acc * 16 + (xdigitValue b).getD 0) ds := rfl

theorem xdigitValue_lt {b : UInt8} {v : ℕ} (h : xdigitValue b = some v) : v < 16 := by
  rw [xdigitValue] at h
  split at h
  · next hb =>
    obtain rfl := Option.some.inj h
    have := hb.2
    change b.toNat ≤ 57 at this
    omega
  · split at h
    · next hb =>
      obtain rfl := Option.some.inj h
      have := hb.2
      change b.toNat ≤ 70 at this
      omega
    · split at h
      · next hb =>
        obtain rfl := Option.some.inj h
        have := hb.2
        change b.toNat ≤ 102 at this
        omega
      · cases h

/-- Digits that fit a word are read up to the first other character. -/
theorem readNumber_hex {ds rest : List UInt8} {acc : ℕ} (hds : ∀ b ∈ ds, isxdigit b = true)
    (hrest : ∀ b ∈ rest.head?, isxdigit b = false) (hfits : (acc + 1) * 16 ^ ds.length ≤ 2 ^ 64) :
    readNumber 16 acc (ds ++ rest) = (hexValue acc ds, rest) := by
  induction ds generalizing acc with
  | nil =>
    rcases rest with _ | ⟨b, rest⟩
    · rfl
    have hb := hrest b rfl
    rw [isxdigit, Option.isSome_eq_false_iff, Option.isNone_iff_eq_none] at hb
    rw [nil_append, readNumber, hb]
    rfl
  | cons b ds ih =>
    obtain ⟨v, hv⟩ := Option.isSome_iff_exists.mp (hds b mem_cons_self)
    have hlt := xdigitValue_lt hv
    have hle : (acc * 16 + v + 1) * 16 ^ ds.length ≤ 2 ^ 64 := by
      rw [length_cons, Nat.pow_succ', ← Nat.mul_assoc] at hfits
      exact Nat.le_trans (Nat.mul_le_mul_right _ (by omega)) hfits
    have hsmall : acc * 16 + v < 2 ^ 64 :=
      Nat.le_trans (Nat.le_mul_of_pos_right _ (Nat.pow_pos (by decide))) hle
    rw [cons_append, readNumber, hv]
    dsimp only
    rw [if_pos hlt, Nat.mod_eq_of_lt hsmall, ih (forall_mem_cons.mp hds).2 hle, hexValue_cons,
      hv, Option.getD_some]

/-- Hexadecimal digits are read up to the first other character. -/
theorem simpleStrtoul_hex {ds rest : List UInt8} (hds : ∀ b ∈ ds, isxdigit b = true)
    (hrest : ∀ b ∈ rest.head?, isxdigit b = false ∧ b ≠ 120) (hlen : ds.length ≤ 16) :
    simpleStrtoul 16 (ds ++ rest) = (hexValue 0 ds, rest) := by
  have hstop : ∀ b ∈ rest.head?, isxdigit b = false := fun b hb => (hrest b hb).1
  have hpow : ∀ n ≤ 16, (0 + 1) * 16 ^ n ≤ 2 ^ 64 := by
    intro n hn
    calc (0 + 1) * 16 ^ n = 16 ^ n := by rw [Nat.one_mul]
      _ ≤ 16 ^ 16 := Nat.pow_le_pow_right (by decide) hn
      _ = 2 ^ 64 := by decide
  unfold simpleStrtoul
  split
  · next b p heq =>
    -- no digit and no first other character is an `x`
    exfalso
    match ds, heq with
    | [], heq =>
      have hb := (hrest 48 (by rw [show rest = 48 :: 120 :: b :: p from heq]; rfl)).1
      cases hb
    | [c], heq =>
      have hb := (hrest 120 (by rw [show rest = 120 :: b :: p from (cons.inj heq).2]; rfl)).2
      exact hb rfl
    | c :: c' :: ds, heq =>
      have hc : c' = 120 := (cons.inj (cons.inj heq).2).1
      have hx := hds c' (by simp)
      rw [hc] at hx
      cases hx
  · next p _ heq =>
    match ds, heq with
    | [], heq =>
      have hb := (hrest 48 (by rw [show rest = 48 :: p from heq]; rfl)).1
      cases hb
    | c :: ds, heq =>
      rw [cons_append] at heq
      obtain ⟨hc, hp⟩ := cons.inj heq
      subst hc
      rw [← hp, if_neg (by decide), readNumber_hex (forall_mem_cons.mp hds).2 hstop
        (hpow _ (by rw [length_cons] at hlen; omega)), hexValue_cons]
      rfl
  · rw [if_neg (by decide), readNumber_hex hds hstop (hpow _ hlen)]

end UBoot.Lib
