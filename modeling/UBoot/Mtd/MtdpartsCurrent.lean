import UBoot.Common.Run
import UBoot.Mtd.Mtdparts
import Mathlib.Data.List.Nodup
import Mathlib.Data.UInt

/-!
# The current partition

Reference: `common/cmd_mtdparts.c`.

`current_mtd_partnum` is the position of the current partition in the list of its device. When a
partition is added or deleted, it is adjusted by a comparison of offsets.
-/

namespace UBoot.Mtd

open UBoot.Common List

/-- `struct part_info`, with its address. -/
structure PartInfo extends Part where
  addr : ℕ
deriving DecidableEq

/-- The device `current_mtd_dev`, and `current_mtd_partnum`. -/
structure Current where
  numParts : UInt16
  parts : List PartInfo
  partnum : UInt8
deriving DecidableEq

/-- `part_add` and `part_del`. -/
inductive Call where
  | add (part : PartInfo)
  | del (part : PartInfo)

/-- `mtd_part_info` of the current partition. -/
def Current.currPi (t : Current) : Option PartInfo :=
  if t.partnum.toNat < t.numParts.toNat then t.parts[t.partnum.toNat]? else none

/-- `part_del`. With its only partition the device is removed. -/
def Current.partDel (t : Current) (part : PartInfo) : Current :=
  if t.numParts = 1 then ⟨0, [], 0⟩
  else
    let partnum := match t.currPi with
      | none => t.partnum
      | some curr =>
        if curr = part then 0 else if part.offset ≤ curr.offset then t.partnum - 1 else t.partnum
    ⟨t.numParts - 1, t.parts.erase part, partnum⟩

/-- The loop of `part_sort_add`: the list, and whether the number of the current partition is
incremented. -/
def sortAddLoop (part : PartInfo) (curr : Option PartInfo) : List PartInfo → Except MtdpartsError
    (List PartInfo × Bool)
  | [] => .ok ([part], false)
  | pi :: parts =>
    if part.offset = pi.offset ∧ pi.offset = 0 then .error .secondAtZero
    else if part.offset ≤ pi.offset then .ok (part :: pi :: parts, curr.any (pi.offset ≤ ·.offset))
    else
      match sortAddLoop part curr parts with
      | .error e => .error e
      | .ok (parts, moved) => .ok (pi :: parts, moved)

section Calls

variable (mtds : DevType → ℕ → Option MtdInfo) (id : Mtdids)

/-- `part_add`. A partition that is refused changes nothing. -/
def Current.partAdd (t : Current) (part : PartInfo) : Current :=
  match partValidate mtds id part.toPart with
  | .error _ => t
  | .ok valid =>
    match sortAddLoop ⟨valid, part.addr⟩ t.currPi t.parts with
    | .error _ => t
    | .ok (parts, moved) => ⟨t.numParts + 1, parts, if moved then t.partnum + 1 else t.partnum⟩

/-- A call. -/
def Current.step (t : Current) : Call → Current
  | .add part => t.partAdd mtds id part
  | .del part => t.partDel part

/-- The partitions are sorted by their offsets. -/
def InOrder (parts : List PartInfo) : Prop := parts.Pairwise fun a b => a.offset ≤ b.offset

/-- The list stays sorted, and the number is still that of the same partition, or 0 if that one is
deleted. -/
def Stays (t : Current) (call : Call) : Prop :=
  InOrder (t.step mtds id call).parts ∧ match call with
    | .add _ => (t.step mtds id call).currPi = t.currPi
    | .del part =>
      if t.currPi = some part then (t.step mtds id call).partnum = 0 else
        (t.step mtds id call).currPi = t.currPi

/-- A new partition has an address of its own and is at most the 256th one; a partition of the
device is deleted, and it is not the only one. -/
def Legal (t : Current) : Call → Prop
  | .add part => t.parts.length < 256 ∧ ∀ p ∈ t.parts, p.addr ≠ part.addr
  | .del part => part ∈ t.parts ∧ t.numParts ≠ 1

/-- A partition at the offset of the current one is deleted that stands behind it. -/
def Loses (t : Current) : Call → Prop
  | .add _ => False
  | .del part => t.partnum.toNat < t.parts.idxOf part ∧ ∀ curr ∈ t.currPi, part.offset = curr.offset

/-- The partitions are distinct objects, sorted by their offsets, and one of them is the current
one. -/
structure Current.Valid (t : Current) : Prop where
  sorted : InOrder t.parts
  nodup : t.parts.Nodup
  count : t.numParts.toNat = t.parts.length
  current : t.currPi.isSome

variable {mtds id} {t : Current} {part curr : PartInfo} {parts : List PartInfo} {i : ℕ}

theorem currPi_eq (hcount : t.numParts.toNat = t.parts.length) :
    t.currPi = t.parts[t.partnum.toNat]? := by
  rw [Current.currPi, hcount]
  split
  · rfl
  · next h => exact (getElem?_eq_none (Nat.le_of_not_lt h)).symm

theorem currPi_eq_iff (hcount : t.numParts.toNat = t.parts.length) (hnodup : t.parts.Nodup)
    (hi : t.parts[i]? = some curr) : t.currPi = some curr ↔ t.partnum.toNat = i := by
  rw [currPi_eq hcount, ← hi, eq_comm, getElem?_inj (List.getElem?_eq_some_iff.mp hi).1 hnodup, eq_comm]

/-- The number is incremented exactly if the new partition gets in front of the current one. -/
theorem sortAddLoop_spec {l : List PartInfo} {moved : Bool} (hsorted : InOrder parts)
    (h : sortAddLoop part (some curr) parts = .ok (l, moved)) :
    l ~ part :: parts ∧ InOrder l ∧ (curr.offset < part.offset → moved = false) ∧
      (parts[i]? = some curr → l[i + moved.toNat]? = some curr) := by
  induction parts generalizing l i with
  | nil =>
    cases h
    exact ⟨.refl _, pairwise_singleton .., fun _ => rfl, nofun⟩
  | cons pi parts ih =>
    obtain ⟨hpi, hsorted⟩ := pairwise_cons.mp hsorted
    rw [sortAddLoop] at h
    split_ifs at h with hzero hle
    · cases h
      refine ⟨.refl _, pairwise_cons.mpr ⟨?_, pairwise_cons.mpr ⟨hpi, hsorted⟩⟩, ?_, fun hi => ?_⟩
      · exact forall_mem_cons.mpr ⟨hle, fun p hp => hle.trans (hpi p hp)⟩
      · simp
        omega
      · have hmoved : pi.offset ≤ curr.offset :=
          (mem_cons.mp (mem_of_getElem? hi)).elim (fun h => h ▸ Nat.le_refl _) (hpi curr)
        simpa [hmoved] using hi
    · split at h
      · cases h
      next l moved hl =>
      cases h
      obtain ⟨hperm, hl, hmoved, -⟩ := ih (i := 0) hsorted hl
      refine ⟨(hperm.cons pi).trans (.swap ..), pairwise_cons.mpr ⟨fun p hp => ?_, hl⟩,
        hmoved, fun hi => ?_⟩
      · rcases mem_cons.mp (hperm.mem_iff.mp hp) with rfl | hp
        · omega
        · exact hpi p hp
      · rcases i with _ | i
        · cases hi
          rw [hmoved (by omega)]
          rfl
        · rw [add_right_comm]
          exact (ih hsorted ‹_›).2.2.2 hi

/-- Adding a partition keeps the current one. -/
theorem Current.Valid.partAdd (ht : t.Valid) (hlen : t.parts.length < 256)
    (hnew : ∀ p ∈ t.parts, p.addr ≠ part.addr) : (t.partAdd mtds id part).Valid ∧
    (t.partAdd mtds id part).currPi = t.currPi := by
  rw [Current.partAdd]
  split
  · exact ⟨ht, rfl⟩
  next valid hvalid =>
  split
  · exact ⟨ht, rfl⟩
  next l moved hadd =>
  obtain ⟨hsorted, hnodup, hcount, hcurrent⟩ := ht
  obtain ⟨curr, hcurr⟩ := Option.isSome_iff_exists.mp hcurrent
  rw [hcurr] at hadd
  have hget := (currPi_eq hcount).symm.trans hcurr
  obtain ⟨hperm, hl, -, hmoved⟩ := sortAddLoop_spec hsorted hadd
  have hlt := (List.getElem?_eq_some_iff.mp hget).1
  have hnodup' : l.Nodup := hperm.nodup_iff.mpr (nodup_cons.mpr ⟨fun hmem => hnew _ hmem rfl, hnodup⟩)
  have hcount' : (t.numParts + 1).toNat = l.length := by
    rw [UInt16.toNat_add, UInt16.toNat_one, hperm.length_eq, length_cons]
    omega
  have hpi : Current.currPi ⟨t.numParts + 1, l, if moved then t.partnum + 1 else t.partnum⟩ = some
    curr := by
    rw [currPi_eq_iff hcount' hnodup' (hmoved hget)]
    rcases moved
    · rfl
    · exact (UInt8.toNat_add ..).trans (Nat.mod_eq_of_lt (lt_of_le_of_lt hlt hlen))
  exact ⟨⟨hl, hnodup', hcount', hpi ▸ rfl⟩, hpi.trans hcurr.symm⟩

/-- Deleting a partition keeps the current one, unless it stands behind that one at the same
offset. -/
theorem Current.Valid.partDel (ht : t.Valid) (hmem : part ∈ t.parts) (hnum : t.numParts ≠ 1) :
    (Stays mtds id t (.del part) ↔ ¬ Loses t (.del part)) ∧
    (Stays mtds id t (.del part) → (t.partDel part).Valid) := by
  obtain ⟨hsorted, hnodup, hcount, hcurrent⟩ := ht
  obtain ⟨curr, hcurr⟩ := Option.isSome_iff_exists.mp hcurrent
  have hget := (currPi_eq hcount).symm.trans hcurr
  have hsorted' := hsorted.sublist (erase_sublist (a := part))
  have hnodup' := hnodup.sublist (erase_sublist (a := part))
  have hcount' : (t.numParts - 1).toNat = (t.parts.erase part).length ∧
      0 < (t.parts.erase part).length := by
    have hlt := t.numParts.toNat_lt
    have hpos := length_pos_of_mem hmem
    have hne : t.numParts.toNat ≠ 1 := fun h => hnum (UInt16.toNat_inj.mp h)
    rw [UInt16.toNat_sub, UInt16.toNat_one, length_erase_of_mem hmem]
    omega
  simp only [Stays, Current.step, Current.partDel, hcurr, if_neg hnum, Loses, Option.some.injEq,
    Option.mem_def, forall_eq']
  obtain ⟨hi, hcurr'⟩ := List.getElem?_eq_some_iff.mp hget
  obtain ⟨hj, hpart⟩ := List.getElem?_eq_some_iff.mp (getElem?_idxOf hmem)
  by_cases hc : curr = part
  · subst hc
    have hij := (getElem?_inj hi hnodup).mp (hget.trans (getElem?_idxOf hmem).symm)
    simp only [reduceIte]
    refine ⟨iff_of_true ⟨hsorted', trivial⟩ fun h => by omega, fun _ => ⟨hsorted', hnodup', hcount'.1, ?_⟩⟩
    rw [currPi_eq hcount'.1]
    exact Option.isSome_iff_exists.mpr ⟨_, getElem?_eq_getElem hcount'.2⟩
  · simp only [if_neg hc]
    refine ⟨(and_iff_right hsorted').trans ?_, fun h => ⟨hsorted', hnodup', hcount'.1, h.2 ▸ rfl⟩⟩
    have herase := erase_eq_eraseIdx_of_idxOf (l := t.parts) (a := part) rfl
    have hsorted := pairwise_iff_getElem.mp hsorted
    rcases lt_trichotomy t.partnum.toNat (idxOf part t.parts) with hij | hij | hij
    · have hle := hsorted _ _ hi hj hij
      rw [hcurr', hpart] at hle
      rw [currPi_eq_iff hcount'.1 hnodup' (by
        rw [herase, getElem?_eraseIdx, if_pos hij, hget])]
      split
      · rw [UInt8.toNat_sub, UInt8.toNat_one]
        omega
      · exact iff_of_true rfl fun h => by omega
    · exact absurd (Option.some.inj (hget.symm.trans (hij ▸ getElem?_idxOf hmem))) hc
    · have hle := hsorted _ _ hj hi hij
      rw [hcurr', hpart] at hle
      rw [if_pos hle, currPi_eq_iff (i := t.partnum.toNat - 1) hcount'.1 hnodup' (by
        rw [herase, getElem?_eraseIdx, if_neg (by omega), Nat.sub_add_cancel (by omega), hget])]
      have hlt := t.partnum.toNat_lt
      rw [UInt8.toNat_sub, UInt8.toNat_one]
      omega

/-- Along every sequence of calls on the current device, the list stays sorted and the number that
of the current partition, exactly if no partition behind the current one at its offset is
deleted. -/
theorem current_stays_iff {calls : List Call} (ht : t.Valid)
    (hcalls : Guarded (Current.step mtds id) Legal t calls) :
      Guarded (Current.step mtds id) (Stays mtds id) t calls ↔ Guarded (Current.step mtds id)
      (fun t call => ¬ Loses t call) t calls := by
  refine Guarded.congr (fun t call ht hcall => ?_) (fun t call ht hcall hstays => ?_) ht hcalls
  · cases call with
    | add part =>
      obtain ⟨hvalid, heq⟩ := ht.partAdd hcall.1 hcall.2
      exact iff_of_true ⟨hvalid.sorted, heq⟩ not_false
    | del part => exact (ht.partDel hcall.1 hcall.2).1
  · cases call with
    | add part => exact (ht.partAdd hcall.1 hcall.2).1
    | del part => exact (ht.partDel hcall.1 hcall.2).2 hstays

/-- A device of 16 KiB with two partitions at one offset. -/
def twinsId : Mtdids := ⟨.nor, 0, 16384, .ofBytes [110], by decide⟩

@[inherit_doc twinsId]
def twins (partnum : UInt8) : Current := ⟨2, [⟨⟨.ofBytes [97], false, 4096, 4096, 0⟩, 0⟩,
  ⟨⟨.ofBytes [98], false, 4096, 4096, 0⟩, 1⟩], partnum⟩

theorem twins_valid : (twins 0).Valid ∧ (twins 1).Valid := by
  refine ⟨⟨?_, ?_, rfl, rfl⟩, ?_, ?_, rfl, rfl⟩ <;> simp [InOrder, twins]

/-- The second one is current and the first one is deleted. -/
theorem current_stays_second :
    Guarded (Current.step (fun _ _ => none) twinsId) (Stays (fun _ _ => none) twinsId) (twins 1)
      [.del (twins 1).parts[0]] := by
  refine (current_stays_iff twins_valid.2 ?_).mpr ⟨fun h => absurd h.1 (by decide), trivial⟩
  exact ⟨⟨by decide, by decide⟩, trivial⟩

/-- The first one is current and the second one is deleted: the number becomes 255. -/
theorem current_lost : (twins 0).Valid ∧ Legal (twins 0) (.del (twins 0).parts[1]) ∧
    ¬ Stays (fun _ _ => none) twinsId (twins 0) (.del (twins 0).parts[1]) :=
  ⟨twins_valid.1, ⟨by decide, by decide⟩, fun h => absurd h.2 (by decide)⟩

end Calls

end UBoot.Mtd
