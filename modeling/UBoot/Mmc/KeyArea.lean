import Mathlib.Data.List.Infix
import UBoot.Mmc.BlockAccess

/-!
# Protection of the key area

Which calls make the driver send a command that covers a byte of the key area. The range of a call
is checked once, with arithmetic that wraps around; the commands are sent for pieces of that range,
with block numbers cut to 32 bits, and an erasure is extended to an erase group or to the whole card
after the check.
-/

namespace UBoot.Mmc

open List

section

variable (m : MmcDev)

/-- The first byte of the key area. -/
def keyBase : ℕ := 0x4000 + 36 * 2 ^ 20

/-- The end of the key area. -/
def keyLimit : ℕ := keyBase + 256 * 1024

/-- The bytes from `lo` up to `hi` meet the key area. -/
def MeetsKey (lo hi : ℕ) : Prop := ∃ a, lo ≤ a ∧ a < hi ∧ keyBase ≤ a ∧ a < keyLimit

/-- The byte that the argument of a command stands for. -/
def byteOf (arg : ℕ) : ℕ := if m.highCapacity then arg * 512 else arg

/-- A command that transfers data of the key area. -/
def TransfersKey (c : Cmd) : Prop :=
  MeetsKey (byteOf m c.cmdarg) (byteOf m c.cmdarg + c.blocks * c.blocksize)

/-- Three commands that erase a part of the key area: the first block, the last one, and the
order. -/
def ErasesKey (sent : List Cmd) : Prop :=
  ∃ first last, [first, last, eraseCmd] <:+: sent ∧
    MeetsKey (byteOf m first.cmdarg) (byteOf m last.cmdarg + if m.highCapacity then 512 else m.writeBlLen)

/-- Some of the commands cover a byte of the key area. -/
def Exposes (sent : List Cmd) : Prop := (∃ c ∈ sent, TransfersKey m c) ∨ ErasesKey m sent

/-- The calls. -/
inductive Access
  | bread
  | bwrite
  | berase
deriving DecidableEq

/-- The commands of a call. -/
def Access.commands (card : Card) (m : MmcDev) (fuel start blkcnt : ℕ) : Access → List Cmd
  | .bread => (mmcBread card m fuel start blkcnt).2
  | .bwrite => (mmcBwrite card m fuel start blkcnt).2
  | .berase => (mmcBerase card m fuel start blkcnt).2

/-- Whatever the card answers, the call sends no command that covers a byte of the key area. -/
def KeepsKey (access : Access) (start blkcnt : ℕ) : Prop :=
  ∀ card fuel, ¬ Exposes m (access.commands card m fuel start blkcnt)

/-! ### Pieces -/

/-- The first block of piece `i`. -/
def pieceStart (start i : ℕ) : ℕ := (start + i * m.bMax) % 2 ^ 64

/-- The length of piece `i`. -/
def pieceLen (blkcnt i : ℕ) : ℕ := min m.bMax (blkcnt - i * m.bMax)

end

variable {fuel : ℕ}

section Pieces

variable {m : MmcDev} {transfer : List Cmd → ℕ → ℕ → ℕ × List Cmd} {start blkcnt : ℕ}

theorem pieceStart_succ (m : MmcDev) (start i : ℕ) :
    pieceStart m start (i + 1) = (pieceStart m start i + m.bMax) % 2 ^ 64 := by
  rw [pieceStart, pieceStart, Nat.mod_add_mod, Nat.succ_mul, add_assoc]

theorem cur_eq_pieceLen (m : MmcDev) (blkcnt i : ℕ) :
    (if m.bMax < blkcnt - i * m.bMax then m.bMax else blkcnt - i * m.bMax) = pieceLen m blkcnt i := by
  rw [pieceLen]
  split <;> omega

/-- One round of the loop, at piece `i`. -/
theorem transferPieces_succ (fuel i : ℕ) (sent : List Cmd) :
    transferPieces transfer m.bMax (fuel + 1) sent (pieceStart m start i) (blkcnt - i * m.bMax) =
      let r := transfer sent (pieceStart m start i) (pieceLen m blkcnt i)
      if r.1 ≠ pieceLen m blkcnt i then (false, r.2)
      else if (i + 1) * m.bMax < blkcnt then
        transferPieces transfer m.bMax fuel r.2 (pieceStart m start (i + 1)) (blkcnt - (i + 1) * m.bMax)
      else (true, r.2) := by
  rw [transferPieces]
  dsimp only
  rw [cur_eq_pieceLen]
  have hmul : (i + 1) * m.bMax = i * m.bMax + m.bMax := Nat.succ_mul _ _
  by_cases hmore : (i + 1) * m.bMax < blkcnt
  · have hlen : pieceLen m blkcnt i = m.bMax := by
      rw [pieceLen]
      omega
    rw [if_pos hmore, hlen, if_pos (show 0 < blkcnt - i * m.bMax - m.bMax by omega), pieceStart_succ,
      show blkcnt - (i + 1) * m.bMax = blkcnt - i * m.bMax - m.bMax by omega]
  · have hlen : pieceLen m blkcnt i = blkcnt - i * m.bMax := by
      rw [pieceLen]
      omega
    rw [if_neg hmore, hlen, Nat.sub_self, if_neg (lt_irrefl 0)]

variable {c : Cmd} {card : Card} {j : ℕ}

/-- Every command of the loop belongs to a piece all of whose predecessors were transferred. -/
theorem mem_transferPieces {Goes : ℕ → Prop} {Sends : ℕ → Cmd → Prop}
    (hgoes : ∀ sent i, (transfer sent (pieceStart m start i) (pieceLen m blkcnt i)).1 = pieceLen
    m blkcnt i → Goes i)
    (hsends : ∀ sent i, ∀ c ∈ (transfer sent (pieceStart m start i) (pieceLen m blkcnt i)).2,
      c ∈ sent ∨ Sends i c)
    (fuel i : ℕ) (sent : List Cmd) (hi : i = 0 ∨ i * m.bMax < blkcnt) (hbefore : ∀ k < i, Goes k)
    (hc : c ∈ (transferPieces transfer m.bMax fuel sent (pieceStart m start i) (blkcnt - i * m.bMax)).2) :
    c ∈ sent ∨ ∃ j, (j = 0 ∨ j * m.bMax < blkcnt) ∧ (∀ k < j, Goes k) ∧ Sends j c := by
  induction fuel generalizing i sent with
  | zero => exact .inl hc
  | succ fuel ih =>
    have hround : ∀ c ∈ (transfer sent (pieceStart m start i) (pieceLen m blkcnt i)).2,
        c ∈ sent ∨ ∃ j, (j = 0 ∨ j * m.bMax < blkcnt) ∧ (∀ k < j, Goes k) ∧ Sends j c := fun c hc =>
      (hsends sent i c hc).imp id fun h => ⟨i, hi, hbefore, h⟩
    rw [transferPieces_succ] at hc
    dsimp only at hc
    split at hc
    · exact hround c hc
    rename_i hret
    split at hc
    · rename_i hmore
      have hbefore' : ∀ k < i + 1, Goes k := by
        intro k hk
        rcases Nat.lt_succ_iff_lt_or_eq.mp hk with hlt | rfl
        · exact hbefore k hlt
        · exact hgoes sent k (not_not.mp hret)
      rcases ih (i + 1) _ (.inr hmore) hbefore' hc with hold | hnew
      · exact hround c hold
      · exact .inr hnew
    · exact hround c hc

theorem pieceStart_zero (hstart : start < 2 ^ 64) : pieceStart m start 0 = start := by
  rw [pieceStart, Nat.zero_mul, Nat.add_zero, Nat.mod_eq_of_lt hstart]

/-- A command without data that does not order an erasure. -/
def IsPlain (c : Cmd) : Prop := ∃ idx arg, idx ≠ .erase ∧ c = .plain idx arg

/-- What `mmc_bread` and `mmc_bwrite` do when the checks have passed. -/
def transferAll (card : Card) (m : MmcDev) (transfer : List Cmd → ℕ → ℕ → ℕ × List Cmd)
    (blLen fuel start blkcnt : ℕ) : ℕ × List Cmd :=
  let len := mmcSetBlocklen card m [] blLen
  if len.1 then (0, len.2)
  else
    let r := transferPieces transfer m.bMax fuel len.2 start blkcnt
    (if r.1 then blkcnt else 0, r.2)

/-- What one call of `mmc_set_blocklen` sends. -/
theorem isPlain_of_mem_setBlocklen {len : ℕ} (hc : c ∈ (mmcSetBlocklen card m [] len).2) :
    IsPlain c := by
  rw [mmcSetBlocklen] at hc
  split at hc
  · cases hc
  · exact ⟨.setBlocklen, len, by decide, by simpa [mmcSendCmd] using hc⟩

/-- Their commands, from the first piece on. -/
theorem mem_transferAll {blLen : ℕ} (Goes : ℕ → Prop) (Sends : ℕ → Cmd → Prop)
    (hstart : start < 2 ^ 64)
    (hgoes : ∀ sent i, (transfer sent (pieceStart m start i) (pieceLen m blkcnt i)).1 = pieceLen
      m blkcnt i → Goes i)
    (hsends : ∀ sent i, ∀ c ∈ (transfer sent (pieceStart m start i) (pieceLen m blkcnt i)).2,
      c ∈ sent ∨ IsPlain c ∨ Sends i c) (hc : c ∈
      (transferAll card m transfer blLen fuel start blkcnt).2) :
    IsPlain c ∨ ∃ j, (j = 0 ∨ j * m.bMax < blkcnt) ∧ (∀ k < j, Goes k) ∧ Sends j c := by
  rw [transferAll] at hc
  split at hc
  · exact .inl (isPlain_of_mem_setBlocklen hc)
  rcases mem_transferPieces hgoes hsends fuel 0 _ (.inl rfl) (fun k hk => absurd hk (Nat.not_lt_zero k))
    (by rwa [pieceStart_zero hstart, Nat.zero_mul, Nat.sub_zero]) with hold | ⟨j, hj,
    hbefore, hplain | hsent⟩
  · exact .inl (isPlain_of_mem_setBlocklen hold)
  · exact .inl hplain
  · exact .inr ⟨j, hj, hbefore, hsent⟩

/-- A card that answers every command without an error. -/
def goodCard : Card := fun _ _ => false

section

variable (transfer : List Cmd → ℕ → ℕ → ℕ × List Cmd)
  (hgoes : ∀ sent, ∀ k < j, (transfer sent (pieceStart m start k) (pieceLen m blkcnt k)).1 =
  pieceLen m blkcnt k)
  (hsends : ∀ sent, c ∈ (transfer sent (pieceStart m start j) (pieceLen m blkcnt j)).2)
    (hj : j * m.bMax < blkcnt)

include hgoes hsends hj

/-- If all pieces before piece `j` are transferred, the loop comes to it. -/
theorem transferPieces_reaches (sent : List Cmd) (d i : ℕ) (hi : i + d = j) :
    c ∈ (transferPieces transfer m.bMax (d + 1) sent (pieceStart m start i) (blkcnt - i * m.bMax)).2 := by
  induction d generalizing i sent with
  | zero =>
    obtain rfl : i = j := hi
    rw [transferPieces_succ]
    dsimp only
    split
    · exact hsends sent
    · split <;> exact hsends sent
  | succ d ih =>
    have hmore : (i + 1) * m.bMax < blkcnt := by
      have := Nat.mul_le_mul_right m.bMax (show i + 1 ≤ j by omega)
      omega
    rw [transferPieces_succ]
    rw [if_neg (not_not.mpr (hgoes sent i (by omega))), if_pos hmore]
    exact ih _ (i + 1) (by omega)

theorem transferAll_reaches {blLen : ℕ} (hstart : start < 2 ^ 64) :
    c ∈ (transferAll goodCard m transfer blLen (j + 1) start blkcnt).2 := by
  have hlen : (mmcSetBlocklen goodCard m [] blLen).1 = false := by
    rw [mmcSetBlocklen]
    split <;> rfl
  have hc := transferPieces_reaches transfer hgoes hsends hj (mmcSetBlocklen goodCard m [] blLen).2
    j 0 (Nat.zero_add j)
  rw [pieceStart_zero hstart, Nat.zero_mul] at hc
  rw [transferAll]
  rwa [hlen, if_neg Bool.false_ne_true]

end

end Pieces

section

variable (m : MmcDev) (start blkcnt : ℕ)

/-! ### The condition -/

/-- The check refuses the call. -/
def Refused : Prop :=
  keyStartBlk ≤ (start + blkcnt + (2 ^ 64 - 1)) % 2 ^ 64 ∧ start ≤ keyEndBlk

/-- Piece `i` of a transfer covers a byte of the key area. -/
def PieceMeetsKey (blLen start blkcnt i : ℕ) : Prop :=
  let a := byteOf m (blockArg m blLen (pieceStart m start i))
  MeetsKey a (a + pieceLen m blkcnt i * blLen)

/-- An erasure of `blkcnt` blocks covers a byte of the key area. -/
def ErasureMeetsKey : Prop :=
  MeetsKey (byteOf m (blockArg m m.writeBlLen start))
    (byteOf m (blockArg m m.writeBlLen ((start + blkcnt + (2 ^ 64 - 1)) % 2 ^ 64)) +
      if m.highCapacity then 512 else m.writeBlLen)

/-- Piece `i` of a write ends within the card. -/
def PieceFits (i : ℕ) : Prop :=
  (pieceStart m start i + pieceLen m blkcnt i) % 2 ^ 64 ≤ m.lba

/-- The calls that leave the key area alone, as a condition on their arguments. -/
def Harmless : Access → Prop
  | .bread => blkcnt = 0 ∨ m.lba < (start + blkcnt) % 2 ^ 64 ∨ Refused start blkcnt ∨
      ∀ i, i * m.bMax < blkcnt → (i = 0 ∨ m.bMax < 2 ^ 31) → ¬ PieceMeetsKey m m.readBlLen start blkcnt i
  | .bwrite => Refused start blkcnt ∨
      ∀ i, i * m.bMax < blkcnt → (∀ k ≤ i, PieceFits m start blkcnt k) →
      ¬ PieceMeetsKey m m.writeBlLen start blkcnt i
  | .berase => Refused start blkcnt ∨ eraseCount m blkcnt = 0 ∨
      ¬ ErasureMeetsKey m start (max (eraseCount m blkcnt) m.eraseGrpSize)

end

section Law

variable {m : MmcDev} {card : Card} {sent : List Cmd} {start blkcnt i : ℕ} {c : Cmd}

theorem legal_iff (hemmc : m.isEmmcTsd) (hkey : ¬ disprotectKey m) :
    emmckeyIsAccessRangeLegal m start blkcnt = true ↔ ¬ Refused start blkcnt := by
  rw [emmckeyIsAccessRangeLegal, if_pos hemmc, if_pos hkey, Refused]
  split <;> simp_all

theorem not_meetsKey_of_le {lo hi : ℕ} (h : hi ≤ lo) : ¬ MeetsKey lo hi := by
  rintro ⟨a, hlo, hhi, -⟩
  omega

/-- Commands without data transfer nothing. -/
theorem not_transfersKey_plain (m : MmcDev) (idx : CmdIdx) (arg : ℕ) :
    ¬ TransfersKey m (.plain idx arg) :=
  not_meetsKey_of_le (by simp [Cmd.plain])

/-- Plain commands expose nothing, and only an order erases. -/
theorem Exposes.exists_transfer {P : Cmd → Prop} (h : Exposes m sent)
    (hcmds : ∀ c ∈ sent, IsPlain c ∨ c.cmdidx ≠ .erase ∧ P c) : ∃ c, TransfersKey m c ∧ P c := by
  rcases h with ⟨c, hc, hmeets⟩ | ⟨first, last, hin, -⟩
  · rcases hcmds c hc with ⟨idx, arg, -, rfl⟩ | ⟨-, hP⟩
    · exact absurd hmeets (not_transfersKey_plain m idx arg)
    · exact ⟨c, hmeets, hP⟩
  · rcases hcmds eraseCmd (hin.subset (by simp)) with ⟨idx, arg, hidx, heq⟩ | ⟨hidx, -⟩
    · exact absurd (congrArg Cmd.cmdidx heq).symm hidx
    · exact absurd rfl hidx

theorem not_exposes_nil : ¬ Exposes m [] := fun h =>
  have ⟨_, _, hnever⟩ := h.exists_transfer (by simp)
  hnever

theorem pieceLen_lt (m : MmcDev) (blkcnt i : ℕ) : pieceLen m blkcnt i < 2 ^ 32 :=
  (min_le_left _ _).trans_lt m.bMax_lt

theorem pieceLen_of_lt (h : (i + 1) * m.bMax < blkcnt) : pieceLen m blkcnt i = m.bMax := by
  rw [Nat.succ_mul] at h
  rw [pieceLen]
  omega

theorem mem_sendStop {several : Bool} (hc : c ∈ (sendStop card sent several).2) :
    c ∈ sent ∨ IsPlain c := by
  rw [sendStop] at hc
  split at hc
  · refine (mem_append.mp hc).imp_right fun h => ?_
    exact ⟨.stopTransmission, 0, by decide, mem_singleton.mp h⟩
  · exact .inl hc

theorem mem_sendStop_of_mem {several : Bool} (hc : c ∈ sent) :
    c ∈ (sendStop card sent several).2 := by
  rw [sendStop]
  split
  · exact mem_append_left _ hc
  · exact hc

theorem sendStop_good (sent : List Cmd) (several : Bool) :
    (sendStop goodCard sent several).1 = false := by
  rw [sendStop]
  split <;> rfl

/-! ### Reading -/

variable {cnt : ℕ}

/-- What is sent with a command of a transfer. -/
theorem mem_sendStop_cmd {several : Bool} {cmd : Cmd}
    (hc : c ∈ (sendStop card (mmcSendCmd card sent cmd).2 several).2) : c ∈ sent ∨
    IsPlain c ∨ c = cmd := by
  rcases mem_sendStop hc with hsent | hstop
  · rcases mem_append.mp hsent with hold | hnew
    · exact .inl hold
    · exact .inr (.inr (mem_singleton.mp hnew))
  · exact .inr (.inl hstop)

/-- A count that comes back unchanged is an `int`. -/
theorem lt_of_mmcReadBlocks (hcnt : cnt < 2 ^ 32)
    (h : (mmcReadBlocks card m sent start cnt).1 = cnt) : cnt < 2 ^ 31 := by
  rcases ite_eq_iff.mp h with ⟨-, h⟩ | ⟨-, h⟩
  · omega
  · rw [intCount] at h
    split at h <;> omega

theorem mmcReadBlocks_ok (hcnt : cnt < 2 ^ 31) :
    (mmcReadBlocks goodCard m sent start cnt).1 = cnt := by
  rw [mmcReadBlocks]
  rw [sendStop_good, if_neg (by simp [mmcSendCmd, goodCard]), intCount, if_pos (by omega)]
  omega

theorem transfersKey_readCmd :
    TransfersKey m (readCmd m (pieceStart m start i) (pieceLen m blkcnt i)) ↔
      PieceMeetsKey m m.readBlLen start blkcnt i := by
  rw [TransfersKey, PieceMeetsKey, readCmd, Nat.mod_eq_of_lt (pieceLen_lt m blkcnt i)]

theorem readCmd_ne_erase (m : MmcDev) (start cnt : ℕ) : (readCmd m start cnt).cmdidx ≠ .erase := by
  rw [readCmd]
  dsimp only
  split <;> decide

/-- The commands of a read that the checks let through. -/
theorem mmcBread_commands (hstart : start < 2 ^ 64) : ∀ c ∈ (mmcBread card m fuel start blkcnt).2,
    IsPlain c ∨ c.cmdidx ≠ .erase ∧
      (blkcnt ≠ 0 ∧ (start + blkcnt) % 2 ^ 64 ≤ m.lba ∧ emmckeyIsAccessRangeLegal m start blkcnt = true) ∧
      ∃ j, j * m.bMax < blkcnt ∧ (j = 0 ∨ m.bMax < 2 ^ 31) ∧
        c = readCmd m (pieceStart m start j) (pieceLen m blkcnt j) := by
  intro c hc
  rw [mmcBread] at hc
  by_cases hzero : blkcnt = 0
  · rw [if_pos hzero] at hc
    cases hc
  by_cases hlba : m.lba < (start + blkcnt) % 2 ^ 64
  · rw [if_neg hzero, if_pos hlba] at hc
    cases hc
  by_cases hlegal : emmckeyIsAccessRangeLegal m start blkcnt = true
  swap
  · rw [if_neg hzero, if_neg hlba, if_pos hlegal] at hc
    cases hc
  rw [if_neg hzero, if_neg hlba, if_neg (not_not.mpr hlegal)] at hc
  rcases mem_transferAll (fun k => pieceLen m blkcnt k < 2 ^ 31)
    (fun j c => c = readCmd m (pieceStart m start j) (pieceLen m blkcnt j)) hstart
    (fun sent i h => lt_of_mmcReadBlocks (pieceLen_lt m blkcnt i) h)
      (fun sent i c hc => mem_sendStop_cmd hc) hc
    with hplain | ⟨j, hj, hgoes, rfl⟩
  · exact .inl hplain
  have hj' : j * m.bMax < blkcnt := by
    rcases hj with rfl | hj
    · rw [Nat.zero_mul]
      exact Nat.pos_of_ne_zero hzero
    · exact hj
  refine .inr ⟨readCmd_ne_erase m _ _, ⟨hzero, not_lt.mp hlba, hlegal⟩, j, hj', ?_, rfl⟩
  rcases Nat.eq_zero_or_pos j with hz | hpos
  · exact .inl hz
  · have hlt := hgoes (j - 1) (by omega)
    rw [pieceLen_of_lt (by rw [Nat.sub_add_cancel hpos]; omega)] at hlt
    exact .inr hlt

/-- On a good card every piece of a read comes. -/
theorem readCmd_mem_mmcBread (hzero : blkcnt ≠ 0) (hlba : (start + blkcnt) % 2 ^ 64 ≤ m.lba)
    (hlegal : emmckeyIsAccessRangeLegal m start blkcnt = true) (hstart : start < 2 ^ 64)
    (hi : i * m.bMax < blkcnt) (hint : i = 0 ∨ m.bMax < 2 ^ 31) :
    readCmd m (pieceStart m start i) (pieceLen m blkcnt i) ∈
      (mmcBread goodCard m (i + 1) start blkcnt).2 := by
  rw [mmcBread, if_neg hzero, if_neg hlba.not_gt, if_neg (not_not.mpr hlegal)]
  refine transferAll_reaches (mmcReadBlocks goodCard m) (fun sent k hk => ?_)
    (fun _ => mem_sendStop_of_mem (mem_append_right _ (mem_singleton_self _))) hi hstart
  have hb : m.bMax < 2 ^ 31 := hint.resolve_left (by omega)
  exact mmcReadBlocks_ok ((min_le_left _ _).trans_lt hb)

theorem keepsKey_bread (hemmc : m.isEmmcTsd) (hkey : ¬ disprotectKey m) (hstart : start < 2 ^ 64) :
    KeepsKey m .bread start blkcnt ↔ Harmless m start blkcnt .bread := by
  constructor
  · intro h
    by_contra hharm
    rw [Harmless] at hharm
    push Not at hharm
    obtain ⟨hzero, hlba, hlegal, i, hi, hint, hmeets⟩ := hharm
    refine h goodCard (i + 1) (.inl ⟨_, readCmd_mem_mmcBread hzero hlba
      ((legal_iff hemmc hkey).mpr hlegal) hstart hi hint, ?_⟩)
    exact transfersKey_readCmd.mpr hmeets
  · intro h card fuel hexp
    obtain ⟨c, hmeets, ⟨hzero, hlba, hlegal⟩, j, hj, hint, rfl⟩ :=
        hexp.exists_transfer (mmcBread_commands hstart)
    have hpieces := ((h.resolve_left hzero).resolve_left hlba.not_gt).resolve_left
      ((legal_iff hemmc hkey).mp hlegal)
    exact hpieces j hj hint (transfersKey_readCmd.mp hmeets)

/-! ### Writing -/

/-- What one call of `mmc_write_blocks` sends. -/
theorem mem_mmcWriteBlocks (hc : c ∈ (mmcWriteBlocks card m sent start cnt).2) :
    c ∈ sent ∨ IsPlain c ∨ c = writeCmd m start cnt ∧ (start + cnt) % 2 ^ 64 ≤ m.lba := by
  rw [mmcWriteBlocks] at hc
  by_cases hlba : m.lba < (start + cnt) % 2 ^ 64
  · rw [if_pos hlba] at hc
    exact .inl hc
  rw [if_neg hlba] at hc
  by_cases hzero : cnt = 0
  · rw [if_pos hzero] at hc
    exact .inl hc
  rw [if_neg hzero] at hc
  have hstop : ∀ several, ∀ c ∈ (sendStop card (mmcSendCmd card sent (writeCmd m start cnt)).2 several).2,
      c ∈ sent ∨ IsPlain c ∨ c = writeCmd m start cnt ∧ (start + cnt) % 2 ^ 64 ≤ m.lba := by
    intro several c hc
    exact (mem_sendStop_cmd hc).imp_right (.imp_right fun h => ⟨h, not_lt.mp hlba⟩)
  dsimp only at hc
  split at hc
  · exact hstop _ c hc
  · rcases mem_append.mp hc with hold | hnew
    · exact hstop _ c hold
    · exact .inr (.inl ⟨.sendStatus, 0, by decide, mem_singleton.mp hnew⟩)

/-- A count that comes back is zero or fits. -/
theorem fits_of_mmcWriteBlocks (h : (mmcWriteBlocks card m sent start cnt).1 = cnt) :
    cnt = 0 ∨ (start + cnt) % 2 ^ 64 ≤ m.lba := by
  by_cases hlba : m.lba < (start + cnt) % 2 ^ 64
  · rw [mmcWriteBlocks, if_pos hlba] at h
    exact .inl h.symm
  · exact .inr (not_lt.mp hlba)

/-- A good card takes every piece that fits. -/
theorem mmcWriteBlocks_ok (hfits : (start + cnt) % 2 ^ 64 ≤ m.lba) (hcnt : cnt ≠ 0) :
    (mmcWriteBlocks goodCard m sent start cnt).1 = cnt ∧
      writeCmd m start cnt ∈ (mmcWriteBlocks goodCard m sent start cnt).2 := by
  rw [mmcWriteBlocks, if_neg hfits.not_gt, if_neg hcnt]
  dsimp only
  rw [sendStop_good]
  refine ⟨rfl, mem_append_left _ (mem_sendStop_of_mem ?_)⟩
  exact mem_append_right _ (mem_singleton_self _)

theorem transfersKey_writeCmd :
    TransfersKey m (writeCmd m (pieceStart m start i) (pieceLen m blkcnt i)) ↔
      PieceMeetsKey m m.writeBlLen start blkcnt i := by
  rw [TransfersKey, PieceMeetsKey, writeCmd, Nat.mod_eq_of_lt (pieceLen_lt m blkcnt i)]

theorem writeCmd_ne_erase (m : MmcDev) (start cnt : ℕ) :
    (writeCmd m start cnt).cmdidx ≠ .erase := by
  rw [writeCmd]
  dsimp only
  split <;> decide

/-- The commands of a write that the check lets through. -/
theorem mmcBwrite_commands (hstart : start < 2 ^ 64) : ∀ c ∈ (mmcBwrite card m fuel start blkcnt).2,
    IsPlain c ∨ c.cmdidx ≠ .erase ∧ emmckeyIsAccessRangeLegal m start blkcnt = true ∧
      ∃ j, (j = 0 ∨ j * m.bMax < blkcnt) ∧
        (∀ k < j, pieceLen m blkcnt k = 0 ∨ PieceFits m start blkcnt k) ∧
        PieceFits m start blkcnt j ∧ c = writeCmd m (pieceStart m start j) (pieceLen m blkcnt j) := by
  intro c hc
  rw [mmcBwrite] at hc
  by_cases hlegal : emmckeyIsAccessRangeLegal m start blkcnt = true
  swap
  · rw [if_pos hlegal] at hc
    cases hc
  rw [if_neg (not_not.mpr hlegal)] at hc
  rcases mem_transferAll (fun k => pieceLen m blkcnt k = 0 ∨ PieceFits m start blkcnt k)
    (fun j c => c = writeCmd m (pieceStart m start j) (pieceLen m blkcnt j) ∧ PieceFits m start blkcnt j)
    hstart (fun sent i h => fits_of_mmcWriteBlocks h) (fun sent i c hc => mem_mmcWriteBlocks hc) hc
    with hplain | ⟨j, hj, hgoes, rfl, hfits⟩
  · exact .inl hplain
  · exact .inr ⟨writeCmd_ne_erase m _ _, hlegal, j, hj, hgoes, hfits, rfl⟩

/-- On a good card a write comes to every piece up to the first that does not fit. -/
theorem writeCmd_mem_mmcBwrite (hlegal : emmckeyIsAccessRangeLegal m start blkcnt = true)
    (hstart : start < 2 ^ 64) (hi : i * m.bMax < blkcnt) (hfits : ∀ k ≤ i, PieceFits m start blkcnt k)
    (hb : 0 < m.bMax) :
    writeCmd m (pieceStart m start i) (pieceLen m blkcnt i) ∈
      (mmcBwrite goodCard m (i + 1) start blkcnt).2 := by
  have hpos : ∀ k ≤ i, pieceLen m blkcnt k ≠ 0 := by
    intro k hk
    have := Nat.mul_le_mul_right m.bMax hk
    rw [pieceLen]
    omega
  rw [mmcBwrite, if_neg (not_not.mpr hlegal)]
  exact transferAll_reaches (mmcWriteBlocks goodCard m)
    (fun sent k hk => (mmcWriteBlocks_ok (hfits k hk.le) (hpos k hk.le)).1)
    (fun sent => (mmcWriteBlocks_ok (hfits i le_rfl) (hpos i le_rfl)).2) hi hstart

theorem pos_of_pieceMeetsKey {blLen : ℕ} (h : PieceMeetsKey m blLen start blkcnt i) :
    0 < pieceLen m blkcnt i := by
  by_contra hz
  rw [PieceMeetsKey, Nat.eq_zero_of_not_pos hz, Nat.zero_mul] at h
  exact not_meetsKey_of_le le_rfl h

theorem keepsKey_bwrite (hemmc : m.isEmmcTsd) (hkey : ¬ disprotectKey m) (hstart : start < 2 ^ 64) :
    KeepsKey m .bwrite start blkcnt ↔ Harmless m start blkcnt .bwrite := by
  constructor
  · intro h
    by_contra hharm
    rw [Harmless] at hharm
    push Not at hharm
    obtain ⟨hlegal, i, hi, hfits, hmeets⟩ := hharm
    have hb : 0 < m.bMax := (pos_of_pieceMeetsKey hmeets).trans_le (min_le_left _ _)
    refine h goodCard (i + 1) (.inl ⟨_, writeCmd_mem_mmcBwrite ((legal_iff hemmc hkey).mpr hlegal)
      hstart hi hfits hb, ?_⟩)
    exact transfersKey_writeCmd.mpr hmeets
  · intro h card fuel hexp
    obtain ⟨c, hmeets, hlegal, j, hj, hgoes, hfits, rfl⟩ :=
        hexp.exists_transfer (mmcBwrite_commands hstart)
    have hpiece := transfersKey_writeCmd.mp hmeets
    have hpos := pos_of_pieceMeetsKey hpiece
    have hj' : j * m.bMax < blkcnt := by
      rw [pieceLen] at hpos
      omega
    refine h.resolve_left ((legal_iff hemmc hkey).mp hlegal) j hj' (fun k hk => ?_) hpiece
    rcases lt_or_eq_of_le hk with hlt | rfl
    · refine (hgoes k hlt).resolve_left ?_
      have := Nat.mul_le_mul_right m.bMax hlt.le
      rw [pieceLen] at hpos ⊢
      omega
    · exact hfits

/-! ### Erasing -/

/-- The commands of an erasure that goes through. -/
def eraseCommands (m : MmcDev) (start blkcnt : ℕ) : List Cmd :=
  [eraseStartCmd m start, eraseEndCmd m start blkcnt, eraseCmd, .plain .sendStatus 0]

theorem mmcEraseT_isPrefix (card : Card) (m : MmcDev) (start blkcnt : ℕ) :
    (mmcEraseT card m [] start blkcnt).2 <+:
      [eraseStartCmd m start, eraseEndCmd m start blkcnt, eraseCmd] ∧
        ((mmcEraseT card m [] start blkcnt).1 = false → (mmcEraseT card m [] start blkcnt).2 =
        [eraseStartCmd m start, eraseEndCmd m start blkcnt, eraseCmd]) := by
  by_cases hfirst : card [] (eraseStartCmd m start) = true
  · simp [mmcEraseT, mmcSendCmd, hfirst]
  · by_cases hlast : card [eraseStartCmd m start] (eraseEndCmd m start blkcnt) = true
    · simp [mmcEraseT, mmcSendCmd, hfirst, hlast]
    · simp [mmcEraseT, mmcSendCmd, hfirst, hlast]

/-- The loop goes round once: it erases a group, or everything that is left. -/
theorem eraseLoop_eq (hstart : start < 2 ^ 64) (hcnt : cnt ≠ 0) (fuel : ℕ) :
    eraseLoop card m start cnt (fuel + 1) []
    0 = let err := mmcEraseT card m [] start (max cnt m.eraseGrpSize)
      if err.1 then (0, err.2)
      else (if (mmcSendCmd card err.2 (.plain .sendStatus 0)).1 then 1 else 0, err.2 ++
        [.plain .sendStatus 0]) := by
  rw [eraseLoop, if_pos (Nat.pos_of_ne_zero hcnt), add_zero, Nat.mod_eq_of_lt hstart, Nat.sub_zero,
    ← max_def_lt]
  have hdone : ¬ 0 + max cnt m.eraseGrpSize < cnt := by omega
  dsimp only
  cases fuel with
  | zero =>
    split_ifs <;> rfl
  | succ fuel =>
    rw [eraseLoop]
    split_ifs <;> rfl

theorem eraseLoop_isPrefix (hstart : start < 2 ^ 64) (hcnt : cnt ≠ 0) (fuel : ℕ) :
    (eraseLoop card m start cnt fuel [] 0).2 <+: eraseCommands m start (max cnt m.eraseGrpSize) := by
  rcases fuel with _ | fuel
  · exact nil_prefix
  obtain ⟨hpre, hok⟩ := mmcEraseT_isPrefix card m start (max cnt m.eraseGrpSize)
  rw [eraseLoop_eq hstart hcnt]
  dsimp only
  split
  · exact hpre.trans (prefix_append _ [Cmd.plain .sendStatus 0])
  · next herr =>
    rw [hok (by simpa using herr)]
    exact prefix_rfl

/-- Only the first three commands erase. -/
theorem erasesKey_eraseCommands (h : ErasesKey m (eraseCommands m start cnt)) :
    ErasureMeetsKey m start cnt := by
  obtain ⟨first, last, ⟨pre, post, hsplit⟩, hmeets⟩ := h
  rw [eraseCommands] at hsplit
  match pre, hsplit with
  | [], hsplit =>
    obtain ⟨rfl, rfl, -⟩ := hsplit
    exact hmeets
  | [_], hsplit =>
    simp only [nil_append, cons_append, cons.injEq] at hsplit
    exact absurd hsplit.2.2.2.1 (by decide)
  | _ :: _ :: pre, hsplit =>
    have hlen := congrArg length hsplit
    simp only [length_append, length_cons] at hlen
    omega

theorem keepsKey_berase (hemmc : m.isEmmcTsd) (hkey : ¬ disprotectKey m) (hstart : start < 2 ^ 64) :
    KeepsKey m .berase start blkcnt ↔ Harmless m start blkcnt .berase := by
  have hlegal : emmckeyIsAccessRangeLegal m start blkcnt = true ↔ ¬ Refused start blkcnt :=
    legal_iff hemmc hkey
  constructor
  · intro h
    by_contra hharm
    rw [Harmless] at hharm
    push Not at hharm
    obtain ⟨hpass, hcnt, hmeets⟩ := hharm
    refine h goodCard 1 (.inr ⟨eraseStartCmd m start, eraseEndCmd m start _, ?_, hmeets⟩)
    rw [Access.commands, mmcBerase, if_neg (not_not.mpr (hlegal.mpr hpass)), eraseLoop_eq hstart hcnt]
    exact ⟨[], [.plain .sendStatus 0], rfl⟩
  · intro h card fuel hexp
    rw [Access.commands, mmcBerase] at hexp
    by_cases hpass : Refused start blkcnt
    · rw [if_pos (mt hlegal.mp (not_not.mpr hpass))] at hexp
      exact not_exposes_nil hexp
    rw [if_neg (not_not.mpr (hlegal.mpr hpass))] at hexp
    by_cases hcnt : eraseCount m blkcnt = 0
    · have hnone : (eraseLoop card m start (eraseCount m blkcnt) fuel [] 0).2 = [] := by
        rw [hcnt]
        cases fuel with
        | zero => rfl
        | succ fuel => rw [eraseLoop, if_neg (lt_irrefl 0)]
      rw [hnone] at hexp
      exact not_exposes_nil hexp
    · have hpre : (eraseLoop card m start _ fuel [] 0).2 <+: _ := eraseLoop_isPrefix hstart hcnt fuel
      rcases hexp with ⟨c, hc, hmeets⟩ | ⟨first, last, hin, hmeets⟩
      · have hmem := hpre.subset hc
        simp only [eraseCommands, mem_cons, not_mem_nil, or_false] at hmem
        rcases hmem with rfl | rfl | rfl | rfl <;> exact not_transfersKey_plain m _ _ hmeets
      · exact (h.resolve_left hpass).resolve_left hcnt
          (erasesKey_eraseCommands ⟨first, last, hin.trans hpre.isInfix, hmeets⟩)

/-- A call leaves the key area alone, whatever the card answers, if and only if its arguments meet
the condition. -/
theorem keepsKey_iff_harmless (m : MmcDev) (access : Access) (hemmc : m.isEmmcTsd)
    (hkey : ¬ disprotectKey m) (hstart : start < 2 ^ 64) : KeepsKey m access start blkcnt ↔
    Harmless m start blkcnt access := by
  cases access with
  | bread => exact keepsKey_bread hemmc hkey hstart
  | bwrite => exact keepsKey_bwrite hemmc hkey hstart
  | berase => exact keepsKey_berase hemmc hkey hstart

/-- A card of 4 GiB with erase groups of 1024 blocks. -/
def emmc : MmcDev where
  highCapacity := true
  isSd := false
  isEmmcTsd := true
  ddrMode := false
  hostIsSpi := false
  readBlLen := 512
  writeBlLen := 512
  eraseGrpSize := 1024
  capacity := 2 ^ 32
  lba := 2 ^ 23
  bMax := 256
  infoDisprotect := 0
  eraseGrpSize_pos := by decide
  bMax_lt := by decide

/-- A read, in two pieces, of the 300 blocks in front of the key area. -/
theorem keepsKey_iff_harmless_below : KeepsKey emmc .bread 73460 300 := by
  refine (keepsKey_iff_harmless emmc .bread rfl (by decide) (by decide)).mpr (.inr (.inr (.inr ?_)))
  rintro i hi - ⟨a, -, hhi, hlo, -⟩
  rw [show emmc.bMax = 256 from rfl] at hi
  have hge : 73760 * 512 ≤ a := hlo
  obtain rfl | rfl : i = 0 ∨ i = 1 := by omega
  · have hlt : a < 73716 * 512 := hhi
    omega
  · have hlt : a < 73760 * 512 := hhi
    omega

/-- A count of 0, behind the start of the card, erases the key area with everything else. -/
theorem not_keepsKey_whole : ¬ KeepsKey emmc .berase 1 0 := by
  rw [keepsKey_berase rfl (by decide) (by decide), Harmless]
  push Not
  refine ⟨by rw [Refused]; decide, by decide, keyBase, ?_⟩
  decide

end Law

end UBoot.Mmc
