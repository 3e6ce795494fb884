import UBoot.Serial.SRecord

/-!
# The length of an S-record

Reference: `common/s_record.c::srec_decode`, `common/cmd_load.c::load_serial`.

The number of data bytes is the length byte without address and checksum. A length byte that is too
small for them makes it negative; a loop ends at once then, but a copy takes it for a large number.
-/

namespace UBoot.Serial

open UBoot.Lib

/-- `SREC_MAXBINLEN`. -/
def srecMaxbinlen : ℕ := 255

/-- The number of bytes that `memcpy` copies for `binlen`. -/
def copySize (binlen : ℤ) : ℕ := (binlen % 2 ^ 64).toNat

/-- The types of data and end records, with the number of bytes of the address. -/
def SrecType.addrWidth : SrecType → Option ℕ
  | .data2 | .end2 => some 2
  | .data3 | .end3 => some 3
  | .data4 | .end4 => some 4
  | _ => none

/-- A line from the length byte on. -/
def fromLength (input : List UInt8) : List UInt8 := (input.dropWhile (· ≠ 83)).tail.tail

/-- The line has the pairs of digits that its length byte `n` announces and nothing else, and its
data are stored and copied as they are counted. -/
structure Measured (input : List UInt8) (n : ℕ) (r : Srec) : Prop where
  count_nonneg : 0 ≤ r.count
  pairs : ∃ bytes, hexBytesIn n ((fromLength input).drop 2) = some (bytes, [])
  stored_le : r.data.length ≤ srecMaxbinlen
  copied : copySize r.count = r.data.length

variable {m n width : ℕ} {input bytes text rest : List UInt8} {r : Srec}

theorem hex2Bin_spec (h : hex2Bin text = some n) : n < 256 ∧ 2 ≤ text.length := by
  unfold hex2Bin at h
  split at h
  · next a b _ =>
    split at h
    · next i j hi hj =>
      have hhi := xdigitValue_lt hi
      have hlo := xdigitValue_lt hj
      cases h
      exact ⟨by omega, Nat.le_add_left _ _⟩
    · cases h
  · cases h

/-- Some pairs, and what is read of more. -/
theorem hexBytesIn_spec (h : hexBytesIn m text = some (bytes, rest)) :
    bytes.length = m ∧ text.length = 2 * m + rest.length ∧
      ∀ n, hexBytesIn (m + n) text = (hexBytesIn n rest).map fun p => (bytes ++ p.1, p.2) := by
  induction m generalizing text bytes with
  | zero =>
    cases h
    exact ⟨rfl, (zero_add _).symm, fun n => by rw [zero_add]; exact Option.map_id'.symm⟩
  | succ m ih =>
    rw [hexBytesIn] at h
    split at h
    · cases h
    next v hv =>
    obtain ⟨p, hp, heq⟩ := Option.map_eq_some_iff.mp h
    cases heq
    obtain ⟨hbytes, hlength, hmore⟩ := ih hp
    rw [List.length_drop] at hlength
    have hlen := (hex2Bin_spec hv).2
    refine ⟨congrArg (· + 1) hbytes, by omega, fun n => ?_⟩
    rw [add_right_comm, hexBytesIn, hv]
    dsimp only
    rw [hmore, Option.map_map]
    rfl

theorem addrWidth_of_recordType {c : UInt8} {type : SrecType} (h : recordType c = some (type, m))
    (hw : type.addrWidth = some width) : m = width ∧ type ≠ .count := by
  unfold recordType at h
  repeat' split at h
  all_goals cases h <;> cases hw <;> exact ⟨rfl, by decide⟩

/-- What a data or end record has been decoded from. -/
theorem srecDecode_ok (h : srecDecode input = .ok r) (hw : r.type.addrWidth = some width)
    (hn : hex2Bin (fromLength input) = some n) :
    r.count = n - (width + 1) ∧ ∃ addr rest rest' v, hexBytesIn width ((fromLength input).drop 2) =
      some (addr, rest) ∧ hexBytesIn r.count.toNat rest = some (r.data, rest') ∧
      hex2Bin rest' = some v := by
  unfold srecDecode at h
  rw [fromLength] at hn ⊢
  split at h
  · cases h
    cases hw
  next c text hc =>
  rw [hc, List.tail_cons] at hn ⊢
  rw [hn] at h
  dsimp only at h
  split at h
  · cases h
  next type w htype =>
  split at h
  · cases h
  next addr rest haddr =>
  split at h
  · cases h
  next data rest' hdata =>
  split at h
  · cases h
  next v hv =>
  split at h
  · cases h
  cases h
  obtain ⟨rfl, hcount⟩ := addrWidth_of_recordType htype hw
  rw [if_neg hcount] at hdata ⊢
  exact ⟨rfl, addr, rest, rest', v, haddr, hdata, hv⟩

/-- Exactly if the length byte covers address and checksum, and nothing stands behind what it
covers. -/
theorem measured_iff (input : List UInt8) (r : Srec) (n width : ℕ) (h : srecDecode input = .ok r)
    (hw : r.type.addrWidth = some width) (hn : hex2Bin (fromLength input) = some n) :
    Measured input n r ↔ width < n ∧ ((fromLength input).drop 2).length = 2 * n := by
  obtain ⟨hcount, addr, rest, rest', v, haddr, hdata, hv⟩ := srecDecode_ok h hw hn
  have hlt := (hex2Bin_spec hn).1
  obtain ⟨hstored, -, hmore⟩ := hexBytesIn_spec hdata
  constructor
  · rintro ⟨hnonneg, ⟨bytes, hpairs⟩, -, -⟩
    exact ⟨by omega, (hexBytesIn_spec hpairs).2.1⟩
  · rintro ⟨hwidth, hlength⟩
    have hlast : hexBytesIn 1 rest' = some ([UInt8.ofNat v], rest'.drop 2) := by
      rw [hexBytesIn, hv]
      rfl
    have hpairs := (hexBytesIn_spec haddr).2.2 (r.count.toNat + 1)
    rw [hmore, hlast, Option.map_some, show width + (r.count.toNat + 1) = n by omega] at hpairs
    have hend := (hexBytesIn_spec hpairs).2.1
    rw [hlength, Nat.left_eq_add, List.length_eq_zero_iff] at hend
    rw [hend] at hpairs
    refine ⟨by omega, ⟨_, hpairs⟩, by rw [srecMaxbinlen]; omega, ?_⟩
    rw [copySize]
    omega

/-- `S1051234A1B261`, a record with two bytes of data. -/
theorem measured_twoBytes :
    Measured [83, 49, 48, 53, 49, 50, 51, 52, 65, 49, 66, 50, 54, 49] 5
    ⟨.data2, 2, 0x1234, [0xa1, 0xb2]⟩ :=
  (measured_iff _ _ 5 2 (by decide +kernel) rfl rfl).mpr (by decide)

/-- `S1000000FF`: its length byte is 0, and its checksum is right. -/
theorem not_measured_zero : srecDecode [83, 49, 48, 48, 48, 48, 48, 48, 70, 70] =
    .ok ⟨.data2, -3, 0, []⟩ ∧
    ¬ Measured [83, 49, 48, 48, 48, 48, 48, 48, 70, 70] 0 ⟨.data2, -3, 0, []⟩ :=
  ⟨by decide +kernel, fun h => absurd h.count_nonneg (by decide)⟩

end UBoot.Serial
