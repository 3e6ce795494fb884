import UBoot.Mtd.Mtdparts

/-!
# Buffers of the `mtdparts` commands

Reference: `common/cmd_mtdparts.c`.

How many bytes `part_parse` needs for the name of a partition, and `generate_mtdparts` for the text,
compared with the space that is there.
-/

namespace UBoot.Mtd

open UBoot.Common UBoot.Lib List

/-! ### Names -/

section Names

/-- `name_len` of `part_parse`. -/
def nameLen (partdef : List UInt8) : ℕ :=
  match sizeParse partdef with
  | .error _ => 0
  | .ok (_, p) =>
    match nameParse (offsetParse p).2 with
    | .ok (some name, _) => name.length + 1
    | _ => 22

/-- How many bytes `part_parse` stores for the name, with `strncpy` or with `sprintf`, the
terminator included. -/
def nameStored (partdef : List UInt8) : ℕ :=
  match sizeParse partdef with
  | .error _ => 0
  | .ok (size, p) =>
    let (offset, p) := offsetParse p
    match nameParse p with
    | .ok (some name, _) => name.length + 1
    | _ => (autoNameOf size offset).length + 1

theorem length_digitsIn (base w n : ℕ) : (digitsIn base w n).length = w := by
  induction w generalizing n with
  | zero => rfl
  | succ w ih => rw [digitsIn, length_append, ih, length_singleton]

/-- The name of a partition and its terminator are stored in the space for it if and only if the
name was given, or both numbers in the generated one have at most eight digits. -/
theorem partParse_name_fits_iff (partdef rest : List UInt8) (part : Part)
    (h : partParse partdef = .ok (part, rest)) :
    nameStored partdef ≤ nameLen partdef ↔
      (part.autoName = true → part.size < 2 ^ 32 ∧ part.offset < 2 ^ 32) := by
  rw [partParse] at h
  rw [nameStored, nameLen]
  rcases hsize : sizeParse partdef with _ | ⟨size, p⟩ <;> rw [hsize] at h
  · cases h
  dsimp only at h ⊢
  rcases hname : nameParse (offsetParse p).2 with _ | ⟨name, p'⟩ <;> rw [hname] at h
  · cases h
  dsimp only at h ⊢
  split at h
  · cases h
  obtain ⟨rfl, rfl⟩ := Prod.mk.inj (Except.ok.inj h)
  cases name with
  | some name => simp
  | none =>
    have hlength : ∀ n, (fmtLx 8 n).length = max 8 (Nat.log 16 n + 1) := fun n => by
      rw [fmtLx, length_map, length_digitsIn]
    have hlog : ∀ n, n < 16 ^ 8 ↔ Nat.log 16 n < 8 := fun n =>
      ⟨Nat.log_lt_of_lt_pow' (by decide), Nat.lt_pow_of_log_lt (by decide)⟩
    rw [show 2 ^ 32 = 16 ^ 8 by decide]
    simp only [Option.isNone_none, forall_const]
    rw [hlog, hlog, autoNameOf]
    simp only [length_append, length_cons, length_nil, hlength]
    omega

/-- The definition `4k@0`. -/
theorem partParse_name_fits_fourK : ∃ part rest, partParse [52, 107, 64, 48] = .ok (part, rest) ∧
    nameStored [52, 107, 64, 48] ≤ nameLen [52, 107, 64, 48] :=
  ⟨_, _, rfl, (partParse_name_fits_iff _ _ _ rfl).mpr fun _ => by decide +kernel⟩

/-- For `4k` 30 bytes are stored in the space of 22, of which the first 21 stay the name. -/
theorem partParse_name_overrun : ∃ part rest, partParse [52, 107] = .ok (part, rest) ∧
    part.name.bytes.length = 21 ∧ nameStored [52, 107] = 30 ∧ nameLen [52, 107] = 22 :=
  ⟨_, _, rfl, by decide +kernel⟩

end Names

/-! ### The text -/

section Text

variable {buflen maxlen : ℕ} {devices : List Device} {pieces : List (List UInt8)}

/-- The text for a list of devices. -/
def mtdpartsText (devices : List Device) : List UInt8 :=
  if devices = [] then [] else mtdpartsPrefix ++ (devicesPieces devices).flatten

/-- How many bytes are written for the pieces that there is room for, and for the terminator behind
all pieces. -/
def emitted : ℕ → List (List UInt8) → ℕ
  | _, [] => 1
  | maxlen, piece :: pieces =>
    if piece.length > maxlen then 0 else piece.length + emitted (maxlen - piece.length) pieces

/-- How many bytes of its buffer `generate_mtdparts` writes. The `sprintf` at the beginning
terminates its text. -/
def generateWrites (devices : List Device) (buflen : ℕ) : ℕ :=
  if devices = [] then 1 else max 10 (9 + emitted (buflen - 1) (devicesPieces devices))

theorem emitted_of_le (h : pieces.flatten.length ≤ maxlen) :
    emitted maxlen pieces = pieces.flatten.length + 1 := by
  induction pieces generalizing maxlen with
  | nil => rfl
  | cons piece pieces ih =>
    rw [flatten_cons, length_append] at h ⊢
    rw [emitted, if_neg (by omega), ih (by omega)]
    omega

/-- A text that does not fit is written up to the first piece that there is no room for. -/
theorem emitted_le_iff {n : ℕ} (h : maxlen < pieces.flatten.length) : emitted maxlen pieces ≤ n ↔
    ∀ k, (pieces.take k).flatten.length ≤ maxlen → (pieces.take k).flatten.length ≤ n := by
  induction pieces generalizing maxlen n with
  | nil => exact absurd h (Nat.not_lt_zero _)
  | cons piece pieces ih =>
    rw [flatten_cons, length_append] at h
    rw [emitted]
    split
    · next hlt =>
      refine iff_of_true (Nat.zero_le _) fun k hk => ?_
      cases k with
      | zero => exact Nat.zero_le _
      | succ k =>
        rw [take_succ_cons, flatten_cons, length_append] at hk
        omega
    · next hle =>
      have hrest := fun m => ih (n := m) (show maxlen - piece.length < _ by omega)
      refine ⟨fun hn k hk => ?_, fun hall => ?_⟩
      · cases k with
        | zero => exact Nat.zero_le _
        | succ k =>
          rw [take_succ_cons, flatten_cons, length_append] at hk ⊢
          have := (hrest _).mp le_rfl k (by omega)
          omega
      · have hpiece : piece.length ≤ n := by
          have := hall 1
          simp only [take_succ_cons, take_zero, flatten_cons, flatten_nil, append_nil] at this
          exact this (Nat.not_lt.mp hle)
        have := (hrest (n - piece.length)).mpr fun k hk => by
          have := hall (k + 1)
          rw [take_succ_cons, flatten_cons, length_append] at this
          have := this (by omega)
          omega
        omega

/-- The text is kept inside the buffer, and refused if it does not fit, if and only if it fits, or
it is too long by more than nine characters and the pieces up to the first one that there is no room
for end inside the buffer. -/
theorem generate_bounded_iff (devices : List Device) (buflen : ℕ) (hbuf : 1 ≤ buflen) :
    (generateWrites devices buflen ≤ buflen ∧
        (buflen < (mtdpartsText devices).length + 1 → generateMtdparts devices buflen = none)) ↔
      (mtdpartsText devices).length + 1 ≤ buflen ∨
        buflen + 9 < (mtdpartsText devices).length + 1 ∧ 10 ≤ buflen ∧
          ∀ k, ((devicesPieces devices).take k).flatten.length ≤ buflen - 1 →
            ((devicesPieces devices).take k).flatten.length ≤ buflen - 9 := by
  rw [generateWrites, mtdpartsText, generateMtdparts]
  split
  · exact iff_of_true ⟨hbuf, fun h => absurd hbuf (Nat.not_le.mpr h)⟩ (.inl hbuf)
  have hprefix : mtdpartsPrefix.length = 9 := rfl
  rw [length_append, emit_eq]
  split
  · next hle =>
    simp only [emitted_of_le hle]
    omega
  · next hlt =>
    rw [Option.map_none, ← emitted_le_iff (Nat.not_le.mp hlt)]
    simp only [implies_true, and_true]
    omega

/-- A device `a` with a partition of 4 KiB. -/
def fourKDevice : Device := ⟨⟨.nand, 0, 4096, .ofBytes [97], by decide⟩, 1,
    [⟨.ofBytes [112], true, 4096, 0, 0⟩]⟩

theorem generate_bounded_fourK : 1 ≤ 14 ∧ generateWrites [fourKDevice] 14 ≤ 14 :=
  ⟨by decide, ((generate_bounded_iff [fourKDevice] 14 (by decide)).mpr (.inl (by decide +kernel))).1⟩

/-- The text `mtdparts=a:4k` and its terminator are written to a buffer of 13 bytes. -/
theorem generate_overrun : (generateMtdparts [fourKDevice] 13).isSome ∧ generateWrites
    [fourKDevice] 13 = 14 := by
  decide +kernel

end Text

end UBoot.Mtd
