import UBoot.Common.CStr
import UBoot.Lib.Uuid

/-!
# Keys as hexadecimal text

Reference: `drivers/keymanage/key_unify.c`. `_keyman_hex_ascii_to_buf` reads pairs of digits into a
buffer and `_keyman_buf_to_hex_ascii` writes them. The test of the size of the buffer is the wrong
way round.
-/

namespace UBoot.Keymanage

open UBoot.Common UBoot.Lib List

/-- The loop over the pairs of digits: the return value, and the bytes that are written to the front
of the buffer. -/
def hexPairLoop : List UInt8 → ℕ × List UInt8
  | a :: b :: ds =>
    let val := (simpleStrtoul 16 [a, b]).1
    if 255 < val then (105, [])
    else
      let r := hexPairLoop ds
      (r.1, UInt8.ofNat val :: r.2)
  | _ => (0, [])

/-- `_keyman_hex_ascii_to_buf`, for an input of less than 2 GiB. -/
def keymanHexAsciiToBuf (input : CStr) (bufSz : ℕ) : ℕ × List UInt8 :=
  if input.length = 0 then (75, [])
  else if input.length % 2 = 1 then (79, [])
  else if input.length < bufSz * 2 % 2 ^ 32 then (83, [])
  else if input.bytes.any fun c => !isxdigit c then (91, [])
  else hexPairLoop input.bytes

/-- `_keyman_buf_to_hex_ascii` with a buffer for the text. -/
def keymanBufToHexAscii (pdata : List UInt8) :
    List UInt8 := pdata.foldl (fun fmtStr b => fmtStr ++ hexByte b) []

/-- Nothing is written beyond the buffer, and an input that is accepted is read right and can be
written back. -/
def FillsRight (input : CStr) (bufSz : ℕ) : Prop :=
  (keymanHexAsciiToBuf input bufSz).2.length ≤ bufSz ∧
    ((keymanHexAsciiToBuf input bufSz).1 = 0 → (keymanHexAsciiToBuf input bufSz).2 =
      hexPairs input.bytes ∧ (keymanHexAsciiToBuf input bufSz).2.length = input.length / 2 ∧
      keymanBufToHexAscii (keymanHexAsciiToBuf input bufSz).2 = input.bytes.map lower)

/-- The input passes all tests: an even number of digits that is not below twice the size of the
buffer. -/
def Accepted (input : CStr) (bufSz : ℕ) : Prop :=
  input.length ≠ 0 ∧ input.length % 2 = 0 ∧ bufSz * 2 % 2 ^ 32 ≤ input.length ∧
    ∀ c ∈ input.bytes, isxdigit c = true

/-- Two digits make a byte. -/
theorem simpleStrtoul_pair {a b : UInt8} (ha : isxdigit a = true) (hb : isxdigit b = true) :
    (simpleStrtoul 16 [a, b]).1 = (xdigitValue a).getD 0 * 16 + (xdigitValue b).getD 0 ∧
      (simpleStrtoul 16 [a, b]).1 ≤ 255 := by
  have hval : simpleStrtoul 16 ([a, b] ++ []) = (hexValue 0 [a, b], []) :=
    simpleStrtoul_hex (by simp [ha, hb]) (by simp) (by simp)
  rw [append_nil] at hval
  obtain ⟨va, hva⟩ := Option.isSome_iff_exists.mp ha
  obtain ⟨vb, hvb⟩ := Option.isSome_iff_exists.mp hb
  have hlta := xdigitValue_lt hva
  have hltb := xdigitValue_lt hvb
  rw [hval, hexValue_cons, hexValue_cons, hva, hvb, Nat.zero_add]
  exact ⟨rfl, show va * 16 + vb ≤ 255 by omega⟩

theorem hexPairLoop_eq (n : ℕ) {ds : List UInt8} (hlen : ds.length = 2 * n)
    (hds : ∀ c ∈ ds, isxdigit c = true) : hexPairLoop ds = (0, hexPairs ds) := by
  induction n generalizing ds with
  | zero =>
    obtain rfl := length_eq_zero_iff.mp hlen
    rfl
  | succ n ih =>
    obtain ⟨a, ds, rfl⟩ := exists_cons_of_length_eq_add_one hlen
    obtain ⟨b, ds, rfl⟩ := exists_cons_of_length_eq_add_one (Nat.succ.inj hlen)
    simp only [length_cons] at hlen
    obtain ⟨hval, hle⟩ := simpleStrtoul_pair (hds a (by simp)) (hds b (by simp))
    rw [hexPairLoop, if_neg hle.not_gt, ih (by omega) fun c hc => hds c (by simp [hc]), hval]
    rfl

theorem keymanHexAsciiToBuf_of_accepted {input : CStr} {bufSz : ℕ} (h : Accepted input bufSz) :
    keymanHexAsciiToBuf input bufSz = (0, hexPairs input.bytes) := by
  obtain ⟨hne, heven, hle, hds⟩ := h
  have hall : ¬ (input.bytes.any fun c => !isxdigit c) = true := by simpa using hds
  rw [keymanHexAsciiToBuf, if_neg hne, if_neg (by omega), if_neg hle.not_gt, if_neg hall]
  exact hexPairLoop_eq (input.length / 2) (show input.length = _ by omega) hds

theorem keymanHexAsciiToBuf_of_not_accepted {input : CStr} {bufSz : ℕ}
    (h : ¬ Accepted input bufSz) :
    (keymanHexAsciiToBuf input bufSz).1 ≠ 0 ∧ (keymanHexAsciiToBuf input bufSz).2 = [] := by
  rw [keymanHexAsciiToBuf]
  split
  · exact ⟨by simp, rfl⟩
  split
  · exact ⟨by simp, rfl⟩
  split
  · exact ⟨by simp, rfl⟩
  · split
    · exact ⟨by simp, rfl⟩
    · next hne hodd hle hall =>
      exact absurd ⟨hne, by omega, not_lt.mp hle, by simpa using hall⟩ h

theorem keymanBufToHexAscii_eq (pdata : List UInt8) :
    keymanBufToHexAscii pdata = pdata.flatMap hexByte :=
  flatMap_eq_foldl.symm

/-- An input that is accepted is right exactly if it is not longer than the buffer allows. -/
theorem fillsRight_iff (input : CStr) (bufSz : ℕ) :
    FillsRight input bufSz ↔ (Accepted input bufSz → input.length ≤ 2 * bufSz) := by
  rw [FillsRight]
  by_cases h : Accepted input bufSz
  · have heven := h.2.1
    have htext := (hexBytes_hexPairs (input.length / 2) input.bytes (show input.length = _ by omega)
      h.2.2.2).1
    have hlen : (hexPairs input.bytes).length = input.length / 2 := by
      have heq := congrArg length htext
      rw [length_flatMap_hexByte, length_map, ← CStr.length] at heq
      omega
    rw [keymanHexAsciiToBuf_of_accepted h, keymanBufToHexAscii_eq, hlen]
    exact ⟨fun hright _ => by omega, fun hle => ⟨by have := hle h; omega, fun _ => ⟨rfl, rfl, htext⟩⟩⟩
  · obtain ⟨hret, hnone⟩ := keymanHexAsciiToBuf_of_not_accepted h
    rw [hnone]
    exact ⟨fun _ hacc => absurd hacc h, fun _ => ⟨Nat.zero_le _, fun hzero => absurd hzero hret⟩⟩

/-- Two bytes in capital and small letters. -/
def abText : CStr := ⟨[65, 98, 99, 68], by decide⟩

/-- A buffer of one byte is overrun. -/
theorem not_fillsRight_abText : (keymanHexAsciiToBuf abText 1).1 = 0 ∧ ¬ FillsRight abText 1 := by
  refine ⟨by decide +kernel, fun h => ?_⟩
  exact absurd h.1 (by decide +kernel)

end UBoot.Keymanage
