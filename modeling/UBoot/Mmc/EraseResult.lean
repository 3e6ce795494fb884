import UBoot.Mmc.KeyArea

/-!
# The result of an erasure

`mmc_berase` leaves its loop with `break` when a command fails, and returns 0 behind it. A range
that is refused is reported by its own count.
-/

namespace UBoot.Mmc

open List

section

variable (card : Card) (m : MmcDev) (start : ℕ)

/-- The argument for a block, before it is cut to 32 bits. -/
def blockUnit (b : ℕ) : ℕ := if m.highCapacity then b else b * m.writeBlLen

/-- A sequence of erase commands without an error covers the block. -/
def Erased (sent : List Cmd) (b : ℕ) : Prop :=
  ∃ pre first last post, sent = pre ++ first :: last :: eraseCmd :: post ∧
    first.cmdidx = (if m.isSd then .sdEraseWrBlkStart else .eraseGroupStart) ∧
    last.cmdidx = (if m.isSd then .sdEraseWrBlkEnd else .eraseGroupEnd) ∧
    card pre first = false ∧ card (pre ++ [first]) last = false ∧
      card (pre ++ [first, last]) eraseCmd = false ∧
    first.cmdarg ≤ blockUnit m b ∧ blockUnit m b ≤ last.cmdarg

/-- A command was answered with an error. -/
def SomeFailed (sent : List Cmd) : Prop :=
  ∃ i, ∃ hi : i < sent.length, card (sent.take i) sent[i] = true

/-- What a result says of a call: 0 stands for blocks that are all erased, and not for a refusal or
a failure. -/
structure Honest (card : Card) (m : MmcDev) (start blkcnt : ℕ) (r : ℕ × List Cmd) : Prop where
  erased : r.1 = 0 → ∀ b, start ≤ b → b < start + eraseCount m blkcnt → Erased card m r.2 b
  legal : emmckeyIsAccessRangeLegal m start blkcnt = false → r.1 ≠ 0
  failed : SomeFailed card r.2 → r.1 ≠ 0

/-- The number of blocks that the loop erases at once. -/
def erasedAtOnce (blkcnt : ℕ) : ℕ := max (eraseCount m blkcnt) m.eraseGrpSize

/-- The three commands of an erasure are answered without an error. -/
def Answered (cnt : ℕ) : Prop :=
  card [] (eraseStartCmd m start) = false ∧ card [eraseStartCmd m start]
    (eraseEndCmd m start cnt) = false ∧ card [eraseStartCmd m start, eraseEndCmd m start cnt]
    eraseCmd = false

/-- The status that is asked for behind them is an error. -/
def StatusFails (cnt : ℕ) : Prop :=
  card [eraseStartCmd m start, eraseEndCmd m start cnt, eraseCmd] (.plain .sendStatus 0) = true

/-- The 32 bits of the second command name a block that is not in front of the last one. -/
def EndNamed (blkcnt : ℕ) : Prop :=
  blockUnit m (start + eraseCount m blkcnt - 1) ≤ (eraseEndCmd m start (erasedAtOnce m blkcnt)).cmdarg

/-- The calls that report what they did: if the range is refused the count is not 0, and otherwise
there is nothing to erase, or no erase command fails and they name the last block or the status is
an error. -/
def Good (blkcnt : ℕ) : Prop :=
  if emmckeyIsAccessRangeLegal m start blkcnt then
    eraseCount m blkcnt = 0 ∨ Answered card m start (erasedAtOnce m blkcnt) ∧
      (EndNamed m start blkcnt ∨ StatusFails card m start (erasedAtOnce m blkcnt))
  else blkcnt ≠ 0

end

variable {card : Card} {m : MmcDev} {start cnt blkcnt : ℕ}

theorem blockUnit_mono {a b : ℕ} (h : a ≤ b) : blockUnit m a ≤ blockUnit m b := by
  rw [blockUnit, blockUnit]
  split
  · exact h
  · exact Nat.mul_le_mul_right _ h

theorem blockArg_le (m : MmcDev) (start : ℕ) :
    blockArg m m.writeBlLen start ≤ blockUnit m start := by
  rw [blockArg, blockUnit]
  split <;> exact Nat.mod_le _ _

/-- The three commands are sent without an error, or the last one sent fails. -/
theorem mmcEraseT_cases (card : Card) (m : MmcDev) (start cnt : ℕ) :
    ((mmcEraseT card m [] start cnt).2 = [eraseStartCmd m start, eraseEndCmd m start cnt, eraseCmd] ∧
      (mmcEraseT card m [] start cnt).1 = false ∧ Answered card m start cnt) ∨
    ((mmcEraseT card m [] start cnt).1 = true ∧ SomeFailed card (mmcEraseT card m [] start cnt).2 ∧
      ¬ Answered card m start cnt) := by
  by_cases hfirst : card [] (eraseStartCmd m start) = true
  · refine .inr ⟨by simp [mmcEraseT, mmcSendCmd, hfirst], ⟨0, ?_⟩, fun h => by simp [h.1] at hfirst⟩
    simp [mmcEraseT, mmcSendCmd, hfirst]
  by_cases hlast : card [eraseStartCmd m start] (eraseEndCmd m start cnt) = true
  · refine .inr ⟨by simp [mmcEraseT, mmcSendCmd, hfirst, hlast], ⟨1, ?_⟩,
      fun h => by simp [h.2.1] at hlast⟩
    simp [mmcEraseT, mmcSendCmd, hfirst, hlast]
  by_cases herase : card [eraseStartCmd m start, eraseEndCmd m start cnt] eraseCmd = true
  · refine .inr ⟨by simp [mmcEraseT, mmcSendCmd, hfirst, hlast, herase], ⟨2, ?_⟩,
      fun h => by simp [h.2.2] at herase⟩
    simp [mmcEraseT, mmcSendCmd, hfirst, hlast, herase]
  · exact .inl (by simp_all [mmcEraseT, mmcSendCmd, Answered])

/-- What is erased by the commands of one round. -/
theorem erased_iff (h : Answered card m start cnt) {b : ℕ} :
    Erased card m (eraseCommands m start cnt) b ↔
    (eraseStartCmd m start).cmdarg ≤ blockUnit m b ∧ blockUnit m b ≤ (eraseEndCmd m start cnt).cmdarg := by
  constructor
  · rintro ⟨pre, first, last, post, hsplit, hfirst, -, -, -, -, hargs⟩
    rw [eraseCommands] at hsplit
    rcases pre with _ | ⟨c, _ | ⟨d, pre⟩⟩
    · obtain ⟨rfl, rfl, -⟩ := hsplit
      exact hargs
    · -- the first of the three commands is not the one that names the last block
      simp only [nil_append, cons_append, cons.injEq] at hsplit
      rw [← hsplit.2.1, eraseEndCmd] at hfirst
      simp only [Cmd.plain] at hfirst
      split at hfirst <;> cases hfirst
    · have hlen := congrArg length hsplit
      simp only [length_append, length_cons, length_nil] at hlen
      omega
  · exact fun hargs => ⟨[], _, _, _, rfl, rfl, rfl, h.1, h.2.1, h.2.2, hargs⟩

/-- All blocks are erased if and only if the last one is. -/
theorem forall_erased_iff (h : Answered card m start (erasedAtOnce m blkcnt))
    (hcnt : eraseCount m blkcnt ≠ 0) : (∀ b, start ≤ b → b < start + eraseCount m blkcnt →
      Erased card m (eraseCommands m start (erasedAtOnce m blkcnt)) b) ↔ EndNamed m start blkcnt := by
  simp only [erased_iff h]
  refine ⟨fun hall => (hall _ (by omega) (by omega)).2, fun hnamed b hle hlt => ⟨?_, ?_⟩⟩
  · exact (blockArg_le m start).trans (blockUnit_mono hle)
  · exact (blockUnit_mono (by omega)).trans hnamed

theorem not_someFailed_eraseCommands (h : Answered card m start cnt)
    (hstatus : card [eraseStartCmd m start, eraseEndCmd m start cnt, eraseCmd]
    (.plain .sendStatus 0) = false) :
    ¬ SomeFailed card (eraseCommands m start cnt) := by
  rintro ⟨i, hi, hfail⟩
  have hlt : i < 4 := hi
  obtain ⟨hfirst, hlast, herase⟩ := h
  obtain rfl | rfl | rfl | rfl : i = 0 ∨ i = 1 ∨ i = 2 ∨ i = 3 := by omega
  · exact absurd hfail (by simp [eraseCommands, hfirst])
  · exact absurd hfail (by simp [eraseCommands, hlast])
  · exact absurd hfail (by simp [eraseCommands, herase])
  · exact absurd hfail (by simp [eraseCommands, hstatus])

theorem not_someFailed_nil : ¬ SomeFailed card [] := by
  rintro ⟨i, hi, -⟩
  exact absurd hi (Nat.not_lt_zero i)

/-- A call reports what it did exactly for the good ones. -/
theorem honest_iff (card : Card) (m : MmcDev) (fuel start blkcnt : ℕ) (hstart : start < 2 ^ 64) :
    Honest card m start blkcnt (mmcBerase card m (fuel + 1) start blkcnt) ↔ Good card m start blkcnt := by
  rw [Good, mmcBerase]
  by_cases hlegal : emmckeyIsAccessRangeLegal m start blkcnt = true
  swap
  · rw [if_pos hlegal, if_neg hlegal]
    refine ⟨fun h => h.legal (by simpa using hlegal),
      fun hne => ⟨fun hzero => absurd hzero hne, fun _ => hne, ?_⟩⟩
    exact fun h => absurd h not_someFailed_nil
  rw [if_neg (not_not.mpr hlegal), if_pos hlegal]
  have hnot : emmckeyIsAccessRangeLegal m start blkcnt ≠ false := by simp [hlegal]
  by_cases hcnt : eraseCount m blkcnt = 0
  · rw [hcnt]
    refine iff_of_true ⟨fun _ b hle hlt => ?_, fun h => absurd h hnot, fun h => absurd h
      not_someFailed_nil⟩ (.inl rfl)
    omega
  rw [eraseLoop_eq hstart hcnt, ← erasedAtOnce, or_iff_right hcnt]
  dsimp only
  rcases mmcEraseT_cases card m start
      (erasedAtOnce m blkcnt) with ⟨hsent, hok, hcard⟩ | ⟨herr, hfailed, hnone⟩
  · rw [hok, hsent, and_iff_right hcard]
    by_cases hstatus : StatusFails card m start (erasedAtOnce m blkcnt)
    · refine iff_of_true ?_ (.inr hstatus)
      have hone : (mmcSendCmd card _ (.plain .sendStatus 0)).1 = true := hstatus
      rw [if_neg Bool.false_ne_true, hone]
      exact ⟨fun h => absurd h Nat.one_ne_zero, fun _ => Nat.one_ne_zero, fun _ => Nat.one_ne_zero⟩
    · have hzero : (mmcSendCmd card _ (.plain .sendStatus 0)).1 = false := Bool.not_eq_true _ ▸ hstatus
      rw [or_iff_left hstatus, ← forall_erased_iff hcard hcnt, if_neg Bool.false_ne_true, hzero]
      refine ⟨fun h => h.erased rfl, fun hall => ⟨fun _ => hall, fun h => absurd h hnot, fun hfail => ?_⟩⟩
      exact absurd hfail (not_someFailed_eraseCommands hcard hzero)
  · rw [herr]
    exact iff_of_false (fun h => h.failed hfailed rfl) fun h => hnone h.1

theorem honest_first : Honest goodCard emmc 0 1 (mmcBerase goodCard emmc 1 0 1) :=
  (honest_iff goodCard emmc 0 0 1 (by decide)).mpr (by rw [Good, Answered, EndNamed, StatusFails]; decide)

/-- A card that refuses every command, and a refused range with the count 0. -/
theorem not_honest_failing :
    ¬ Honest (fun _ _ => true) emmc 0 1 (mmcBerase (fun _ _ => true) emmc 1 0 1) ∧
      ¬ Honest goodCard emmc (keyStartBlk + 1) 0 (mmcBerase goodCard emmc 1 (keyStartBlk + 1) 0) := by
  exact ⟨fun h => h.failed ⟨0, by decide, by decide⟩ (by decide), fun h => h.legal (by decide) (by decide)⟩

end UBoot.Mmc
