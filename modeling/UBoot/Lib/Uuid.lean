import UBoot.Common.LittleEndian
import UBoot.Lib.Strtoul

/-!
# UUID strings

`uuid_str_to_bin` and `uuid_bin_to_str`. A string has five groups of hexadecimal digits. Its binary
form has the bytes of all groups in their order; in the format of a GUID those of the first three
are reversed.
-/

namespace UBoot.Lib

open UBoot.Common List

/-- `UUID_STR_FORMAT_STD` and `UUID_STR_FORMAT_GUID`. -/
inductive UuidFormat
  | std
  | guid
deriving DecidableEq

/-- `efi_guid_t`. -/
structure Guid where
  b : List UInt8
  length_b : b.length = 16
deriving DecidableEq

/-- The character at position `i` of a UUID string is what it should be. -/
def uuidCharValid (s : List UInt8) (i : ℕ) : Bool :=
  if i = 8 ∨ i = 13 ∨ i = 18 ∨ i = 23 then s.getD i 0 = 45 else isxdigit (s.getD i 0)

/-- `uuid_str_valid`. -/
def uuidStrValid (s : List UInt8) : Bool := s.length = 36 && (List.range 36).all (uuidCharValid s)

/-- The value of the group of digits at a position. -/
def groupAt (s : List UInt8) (i : ℕ) : ℕ := (simpleStrtoul 16 (s.drop i)).1

/-- `uuid_str_to_bin`. -/
def uuidStrToBin (s : List UInt8) (format : UuidFormat) : Option Guid :=
  if uuidStrValid s then
    some {
      b := (match format with
          | .std => (leBytes 4 (groupAt s 0)).reverse ++ (leBytes 2 (groupAt s 9)).reverse ++
              (leBytes 2 (groupAt s 14)).reverse
          | .guid => leBytes 4 (groupAt s 0) ++ leBytes 2 (groupAt s 9) ++ leBytes 2 (groupAt s 14)) ++
        (leBytes 2 (groupAt s 19)).reverse ++ (leBytes 6 (groupAt s 24)).reverse
      length_b := by cases format <;> simp }
  else none

/-- The digit of a number below 16. -/
def hexChar (n : ℕ) : UInt8 := UInt8.ofNat (if n < 10 then 48 + n else 87 + n)

/-- A byte in the format `%02x`. -/
def hexByte (b : UInt8) : List UInt8 := [hexChar (b.toNat / 16), hexChar (b.toNat % 16)]

/-- `uuid_char_order` and `guid_char_order`. -/
def charOrder : UuidFormat → List ℕ
  | .std => [0, 1, 2, 3, 4, 5, 6, 7, 8, 9, 10, 11, 12, 13, 14, 15]
  | .guid => [3, 2, 1, 0, 5, 4, 7, 6, 8, 9, 10, 11, 12, 13, 14, 15]

/-- `uuid_bin_to_str`. -/
def uuidBinToStr (bin : Guid) (format : UuidFormat) : List UInt8 :=
  (List.range 16).flatMap fun i =>
    hexByte (bin.b.getD ((charOrder format).getD i 0) 0) ++ if i ∈ [3, 5, 7, 9] then [45] else []

/-! ### Pairs of digits -/

/-- `tolower`, as far as it concerns the digits. -/
def lower (b : UInt8) : UInt8 := if 65 ≤ b ∧ b ≤ 90 then b + 32 else b

/-- The bytes that pairs of digits stand for. -/
def hexPairs : List UInt8 → List UInt8
  | a :: b :: ds => UInt8.ofNat ((xdigitValue a).getD 0 * 16 + (xdigitValue b).getD 0) :: hexPairs ds
  | _ => []

/-- The pairs of digits in the opposite order. -/
def swapPairs : List UInt8 → List UInt8
  | a :: b :: ds => swapPairs ds ++ [a, b]
  | _ => []

theorem getD_xdigitValue_lt (b : UInt8) : (xdigitValue b).getD 0 < 16 := by
  cases hb : xdigitValue b with
  | none => decide
  | some v => exact xdigitValue_lt hb

theorem leBytes_pair (k acc : ℕ) {x y : ℕ} (hx : x < 16) (hy : y < 16) :
    leBytes (k + 1) ((acc * 16 + x) * 16 + y) = UInt8.ofNat (x * 16 + y) :: leBytes k acc := by
  rw [leBytes, show ((acc * 16 + x) * 16 + y) % 256 = x * 16 + y by omega,
    show ((acc * 16 + x) * 16 + y) / 256 = acc by omega]

/-- The bytes of a number, the first digits first. -/
theorem leBytes_hexValue (n k acc : ℕ) (ds : List UInt8) (hlen : ds.length = 2 * n)
    (hds : ∀ b ∈ ds, isxdigit b = true) :
    (leBytes (k + n) (hexValue acc ds)).reverse = (leBytes k acc).reverse ++ hexPairs ds := by
  induction n generalizing k acc ds with
  | zero =>
    rw [eq_nil_of_length_eq_zero hlen, hexPairs, append_nil]
    · rfl
    · simp
  | succ n ih =>
    match ds, hlen with
    | a :: b :: ds, hlen =>
      rw [length_cons, length_cons] at hlen
      have hrest : ∀ c ∈ ds, isxdigit c = true := fun c hc => hds c (by simp [hc])
      rw [show k + (n + 1) = k + 1 + n by omega, hexValue_cons, hexValue_cons, ih _ _ _ (by omega) hrest,
        leBytes_pair k acc (getD_xdigitValue_lt a) (getD_xdigitValue_lt b), reverse_cons,
        hexPairs, append_assoc,
        singleton_append]

theorem hexChar_xdigitValue {a : UInt8} (ha : isxdigit a = true) :
    hexChar ((xdigitValue a).getD 0) = lower a := by
  obtain ⟨n, rfl⟩ := exists_ofFin a
  revert n
  decide +kernel

theorem hexByte_ofNat {x y : ℕ} (hx : x < 16) (hy : y < 16) :
    hexByte (UInt8.ofNat (x * 16 + y)) = [hexChar x, hexChar y] := by
  have hnat : (UInt8.ofNat (x * 16 + y)).toNat = x * 16 + y :=
    UInt8.toNat_ofNat_of_lt (by change _ < 256; omega)
  rw [hexByte, hnat, show (x * 16 + y) / 16 = x by omega, show (x * 16 + y) % 16 = y by omega]

theorem hexByte_pair {a b : UInt8} (ha : isxdigit a = true) (hb : isxdigit b = true) :
    hexByte (UInt8.ofNat ((xdigitValue a).getD 0 * 16 + (xdigitValue b).getD 0)) = [lower a, lower b] := by
  rw [hexByte_ofNat (getD_xdigitValue_lt a) (getD_xdigitValue_lt b), hexChar_xdigitValue ha,
    hexChar_xdigitValue hb]

theorem length_flatMap_hexByte (l : List UInt8) : (l.flatMap hexByte).length = 2 * l.length := by
  simp [hexByte, mul_comm]

theorem hexBytes_hexPairs (n : ℕ) (ds : List UInt8) (hlen : ds.length = 2 * n)
    (hds : ∀ b ∈ ds, isxdigit b = true) : (hexPairs ds).flatMap hexByte = ds.map lower ∧
      (hexPairs ds).reverse.flatMap hexByte = (swapPairs ds).map lower := by
  induction n generalizing ds with
  | zero =>
    rw [eq_nil_of_length_eq_zero hlen]
    exact ⟨rfl, rfl⟩
  | succ n ih =>
    match ds, hlen with
    | a :: b :: ds, hlen =>
      rw [length_cons, length_cons] at hlen
      obtain ⟨hfwd, hback⟩ := ih ds (by omega) fun c hc => hds c (by simp [hc])
      have hpair := hexByte_pair (hds a (by simp)) (hds b (by simp))
      constructor
      · rw [hexPairs, flatMap_cons, hpair, hfwd]
        rfl
      · rw [hexPairs, reverse_cons, flatMap_append, hback, swapPairs, map_append, flatMap_singleton, hpair]
        rfl

/-! ### The groups of a string -/

/-- Digits of a group: `n` characters from position `i` on. -/
def group (s : List UInt8) (i n : ℕ) : List UInt8 := (s.drop i).take n

/-- The string with the bytes of its first three groups in the opposite order. -/
def swapped (s : List UInt8) : List UInt8 :=
  swapPairs (group s 0 8) ++ 45 :: (swapPairs (group s 9 4) ++ 45 ::
    (swapPairs (group s 14 4) ++ s.drop 18))

section Groups

variable {s : List UInt8} {i n : ℕ}

theorem drop_group (s : List UInt8) (i n : ℕ) : s.drop i = group s i n ++ s.drop (i + n) := by
  rw [group, ← drop_drop, take_append_drop]

section

variable (hs : uuidStrValid s = true)

include hs

theorem uuidCharValid_of_valid (hi : i < 36) : uuidCharValid s i = true := by
  rw [uuidStrValid, Bool.and_eq_true, all_eq_true] at hs
  exact hs.2 i (mem_range.mpr hi)

theorem length_of_valid : s.length = 36 := by
  rw [uuidStrValid, Bool.and_eq_true] at hs
  exact of_decide_eq_true hs.1

section

variable (hgroup : ∀ j < n, i + j < 36 ∧ ¬ (i + j = 8 ∨ i + j = 13 ∨ i + j = 18 ∨ i + j = 23))

include hgroup

/-- Positions of digits. -/
theorem isxdigit_of_mem_group : ∀ b ∈ group s i n, isxdigit b = true := by
  intro b hb
  obtain ⟨j, hj, rfl⟩ := mem_iff_getElem.mp hb
  rw [group, length_take, length_drop] at hj
  obtain ⟨hlt, hdigit⟩ := hgroup j (by omega)
  have hvalid := uuidCharValid_of_valid hs hlt
  rw [uuidCharValid, if_neg hdigit, getD_eq_getElem?_getD, getElem?_eq_getElem (by omega)] at hvalid
  have hget : (group s i n)[j] = s[i + j] := by simp [group]
  rw [hget]
  exact hvalid

/-- A group ends in front of a dash or at the end of the string. -/
theorem groupAt_eq (hn : n ≤ 16) (hend : i + n = 8 ∨ i + n = 13 ∨ i + n = 18 ∨
    i + n = 23 ∨ i + n = 36) : groupAt s i = hexValue 0 (group s i n) := by
  have hlen := length_of_valid hs
  have hstop : ∀ b ∈ (s.drop (i + n)).head?, isxdigit b = false ∧ b ≠ 120 := by
    intro b hb
    rw [head?_drop] at hb
    by_cases hlast : i + n = 36
    · rw [getElem?_eq_none (by omega)] at hb
      cases hb
    have hvalid := uuidCharValid_of_valid hs (show i + n < 36 by omega)
    rw [uuidCharValid, if_pos (by omega), getD_eq_getElem?_getD, Option.mem_def.mp hb] at hvalid
    have hdash : b = 45 := of_decide_eq_true hvalid
    rw [hdash]
    decide
  rw [groupAt, drop_group s i n,
    simpleStrtoul_hex (isxdigit_of_mem_group hs hgroup) hstop (by rw [group, length_take]; omega)]

end

/-- The bytes of a group. -/
theorem leBytes_groupAt (hn : n ≤ 8)
    (hgroup : ∀ j < 2 * n, i + j < 36 ∧ ¬ (i + j = 8 ∨ i + j = 13 ∨ i + j = 18 ∨ i + j = 23))
    (hend : i + 2 * n = 8 ∨ i + 2 * n = 13 ∨ i + 2 * n = 18 ∨ i + 2 * n = 23 ∨ i + 2 * n = 36) :
    leBytes n (groupAt s i) = (hexPairs (group s i (2 * n))).reverse ∧
      (hexPairs (group s i (2 * n))).flatMap hexByte = (group s i (2 * n)).map lower ∧
      (hexPairs (group s i (2 * n))).reverse.flatMap hexByte = (swapPairs (group s i (2 * n))).map
        lower := by
  have hlen : (group s i (2 * n)).length = 2 * n := by
    have hs' := length_of_valid hs
    rw [group, length_take, length_drop]
    omega
  have hdigits := isxdigit_of_mem_group hs hgroup
  have hbytes := leBytes_hexValue n 0 0 _ hlen hdigits
  rw [zero_add] at hbytes
  rw [groupAt_eq hs hgroup (by omega) hend]
  exact ⟨reverse_eq_iff.mp hbytes, hexBytes_hexPairs n _ hlen hdigits⟩

theorem drop_dash (hi : i = 8 ∨ i = 13 ∨ i = 18 ∨ i = 23) : s.drop i = 45 :: s.drop (i + 1) := by
  have hlen := length_of_valid hs
  have hvalid := uuidCharValid_of_valid hs (show i < 36 by omega)
  rw [uuidCharValid, if_pos hi, getD_eq_getElem?_getD, getElem?_eq_getElem (by omega)] at hvalid
  rw [drop_eq_getElem_cons (by omega)]
  exact congrArg (· :: s.drop (i + 1)) (of_decide_eq_true hvalid)

end

end Groups

/-- The bytes of one of the first three groups as a format has them. -/
def UuidFormat.order : UuidFormat → List UInt8 → List UInt8
  | .std => id
  | .guid => reverse

/-- The text of a GUID by its groups. -/
theorem uuidBinToStr_groups {bin : Guid} {a₀ a₁ a₂ a₃ a₄ : List UInt8}
    (hbin : bin.b = a₀ ++ a₁ ++ a₂ ++ a₃ ++ a₄) (h₀ : a₀.length = 4) (h₁ : a₁.length = 2)
    (h₂ : a₂.length = 2) (h₃ : a₃.length = 2) (h₄ : a₄.length = 6)
    (format : UuidFormat) :
    uuidBinToStr bin format = (format.order a₀).flatMap hexByte ++ 45 ::
      ((format.order a₁).flatMap hexByte ++ 45 ::
      ((format.order a₂).flatMap hexByte ++ 45 :: (a₃.flatMap hexByte ++ 45 :: a₄.flatMap hexByte))) := by
  rw [uuidBinToStr, hbin]
  match a₀, a₁, a₂, a₃, a₄, h₀, h₁, h₂, h₃, h₄ with
  | [_, _, _, _], [_, _], [_, _], [_, _], [_, _, _, _, _, _], _, _, _, _, _ => cases format <;> rfl

/-- The bytes of a UUID, and its text when it is written again: in another format than the one it
was read in, the bytes of its first three groups are in the opposite order. -/
theorem uuidStrToBin_of_valid {s : List UInt8} (hs : uuidStrValid s = true) (f f' : UuidFormat) :
    ∃ bin, uuidStrToBin s f = some bin ∧ bin.b = f.order (hexPairs (group s 0 8)) ++ f.order
        (hexPairs (group s 9 4)) ++ f.order (hexPairs (group s 14 4)) ++ hexPairs (group s 19 4) ++
        hexPairs (group s 24 12) ∧
      uuidBinToStr bin f' = (if f = f' then s else swapped s).map lower := by
  obtain ⟨hb₀, hf₀, hr₀⟩ := leBytes_groupAt (i := 0) (n := 4) hs (by decide) (by omega) (by omega)
  obtain ⟨hb₁, hf₁, hr₁⟩ := leBytes_groupAt (i := 9) (n := 2) hs (by decide) (by omega) (by omega)
  obtain ⟨hb₂, hf₂, hr₂⟩ := leBytes_groupAt (i := 14) (n := 2) hs (by decide) (by omega) (by omega)
  obtain ⟨hb₃, hf₃, -⟩ := leBytes_groupAt (i := 19) (n := 2) hs (by decide) (by omega) (by omega)
  obtain ⟨hb₄, hf₄, -⟩ := leBytes_groupAt (i := 24) (n := 6) hs (by decide) (by omega) (by omega)
  have htail : s.drop 18 = 45 :: (group s 19 4 ++ 45 :: group s 24 12) := by
    have hlast : group s 24 12 = s.drop 24 := take_of_length_le (by simp [length_of_valid hs])
    rw [drop_dash hs (by decide), drop_group s 19 4, drop_dash hs (by decide), hlast]
  have hself : s = group s 0 8 ++ 45 :: (group s 9 4 ++ 45 :: (group s 14 4 ++ s.drop 18)) := by
    rw [← drop_group s 14 4, ← drop_dash hs (i := 13) (by decide), ← drop_group s 9 4,
      ← drop_dash hs (i := 8) (by decide), ← drop_group s 0 8, drop_zero]
  have hsame := congrArg (map lower) hself
  have hswap := congrArg (map lower) (swapped.eq_def s)
  simp only [htail, map_append, map_cons] at hsame hswap
  refine ⟨_, if_pos hs, ?_, ?_⟩
  · cases f <;> simp only [hb₀, hb₁, hb₂, hb₃, hb₄, reverse_reverse] <;> rfl
  cases f <;> cases f'
  all_goals
    rw [uuidBinToStr_groups rfl (by simp) (by simp) (by simp) (by simp) (by simp)]
    simp only [UuidFormat.order, id, hb₀, hb₁, hb₂, hb₃, hb₄, reverse_reverse, hf₀, hf₁, hf₂, hf₃,
      hf₄, hr₀, hr₁, hr₂]
  · exact hsame.symm
  · exact hswap.symm
  · exact hswap.symm
  · exact hsame.symm

theorem uuidBinToStr_of_std {s : List UInt8} {bin : Guid} (h : uuidStrToBin s .std = some bin) :
    uuidBinToStr bin .guid = (swapped s).map lower := by
  by_cases hs : uuidStrValid s
  · obtain ⟨bin', hbin, -, htext⟩ := uuidStrToBin_of_valid hs .std .guid
    rw [hbin] at h
    exact Option.some.inj h ▸ htext
  · rw [uuidStrToBin, if_neg hs] at h
    cases h

/-- The digits of a byte are digits, and stand for the byte. -/
theorem hexByte_spec (b : UInt8) : isxdigit (hexChar (b.toNat / 16)) = true ∧
    isxdigit (hexChar (b.toNat % 16)) = true ∧ hexPairs (hexByte b) = [b] := by
  obtain ⟨n, rfl⟩ := exists_ofFin b
  revert n
  decide +kernel

/-- Every binary form is read back from its text. -/
theorem uuidStrToBin_uuidBinToStr (bin : Guid) (format : UuidFormat) :
    uuidStrToBin (uuidBinToStr bin format) format = some bin := by
  obtain ⟨b, hlen⟩ := bin
  match b, hlen with
  | [_, _, _, _, _, _, _, _, _, _, _, _, _, _, _, _], hlen =>
    have hvalid : uuidStrValid (uuidBinToStr ⟨_, hlen⟩ format) = true := by
      cases format <;> simp [uuidStrValid, uuidBinToStr, range_succ, uuidCharValid, charOrder,
        hexByte, hexByte_spec]
    obtain ⟨⟨b, hlen⟩, heq, hb, -⟩ := uuidStrToBin_of_valid hvalid format format
    have hpair := fun b => (List.cons.inj (hexByte_spec b).2.2).1
    rw [heq, Option.some.injEq, Guid.mk.injEq]
    refine hb.trans ?_
    cases format <;> simp [UuidFormat.order, uuidBinToStr, range_succ, charOrder, hexByte,
      group, hexPairs, hpair]

/-- In both formats a valid string is read and written back in lower case, every binary form is read
back from its text, and no other string is read. -/
theorem uuid_roundTrip (format : UuidFormat) :
    (∀ s, uuidStrValid s = true → ∃ bin, uuidStrToBin s format = some bin ∧
    uuidBinToStr bin format = s.map lower) ∧
    (∀ bin, uuidStrToBin (uuidBinToStr bin format) format = some bin) ∧
    ∀ s, uuidStrValid s = false → uuidStrToBin s format = none := by
  refine ⟨fun s hs => ?_, fun bin => uuidStrToBin_uuidBinToStr bin format, fun s hs => ?_⟩
  · obtain ⟨bin, heq, -, htext⟩ := uuidStrToBin_of_valid hs format format
    rw [if_pos rfl] at htext
    exact ⟨bin, heq, htext⟩
  · simp [uuidStrToBin, hs]

end UBoot.Lib
