import UBoot.Memory.LmbSpans

/-!
# Calls that fail

A call that fails should leave the tables as they were. `lmb_add_region` fails only when the table
is full, and does so before it changes anything. `lmb_free` of a range in the middle of a region
shortens the region first, and only then finds that there is no entry left for what is behind the
hole.
-/

namespace UBoot.Memory

open List

variable {i : ℕ} {ret : ℤ}

namespace LmbRegion

variable {rgn rgn' : LmbRegion} {base size : BitVec 64} {ret : ℤ}

/-- The regions of a table. -/
def regions (rgn : LmbRegion) : List LmbProperty := (List.range rgn.cnt).map rgn.region

theorem mergeNext_nonneg (h : rgn.mergeNext i = some (rgn', ret)) : 0 ≤ ret := by
  rw [mergeNext] at h
  split at h
  · obtain ⟨_, -, heq⟩ := Option.map_eq_some_iff.mp h
    cases heq
    decide
  · cases h
    decide

/-- `lmb_add_region` fails when the table is full and no region takes the new one, and changes
nothing. -/
theorem addRegion_neg (h : rgn.addRegion base size = some (rgn', ret)) (hret : ret < 0) :
    rgn' = rgn ∧ rgn.cnt = maxLmbRegions ∧ ∀ i < rgn.cnt, rgn.stopsAt base size i = false := by
  rw [addRegion] at h
  split at h
  · cases h
    cases hret
  split at h
  case h_1 hfind =>
    have hstop : ∀ i < rgn.cnt, rgn.stopsAt base size i = false := fun i hi =>
      Bool.eq_false_iff.mpr (find?_eq_none.mp hfind i (mem_range.mpr hi))
    rw [addApart] at h
    split at h
    · obtain ⟨_, -, heq⟩ := Option.map_eq_some_iff.mp h
      cases heq
      cases hret
    split at h
    · cases h
      cases hret
    · next hfull =>
      cases h
      exact ⟨rfl, le_antisymm rgn.cnt_le (not_lt.mp hfull), hstop⟩
  case h_2 =>
    have hmerge : ∀ {p : LmbProperty} {i : ℕ}, (rgn.set i p).mergeNext i = some (rgn', ret) → False :=
      fun hm => absurd (mergeNext_nonneg hm) (Int.not_le.mpr hret)
    dsimp only at h
    split at h
    · cases h
      cases hret
    split at h <;> exact (hmerge h).elim

/-- A table that is full fails to take a region that no other region takes. -/
theorem addRegion_full (hcnt : rgn.cnt = maxLmbRegions)
    (hstop : ∀ i < rgn.cnt, rgn.stopsAt base size i = false) :
    rgn.addRegion base size = some (rgn, -1) := by
  have hfind : (range rgn.cnt).find? (rgn.stopsAt base size) = none :=
    find?_eq_none.mpr fun i hi => Bool.eq_false_iff.mp (hstop i (mem_range.mp hi))
  have htouch : ¬ rgn.touchesNext rgn.cnt = true := by
    rw [touchesNext_iff (by rw [hcnt]; decide)]
    omega
  have hdummy : ¬ (rgn.cnt = 1 ∧ (rgn.region 0).size = 0) := by
    rw [hcnt]
    exact fun h => absurd h.1 (by decide)
  rw [addRegion, if_neg hdummy, hfind]
  rw [addApart, if_neg htouch, dif_neg (by rw [hcnt]; exact lt_irrefl _)]

/-- The search of `lmb_free` stops at region `i`. -/
def HoldsFirst (rgn : LmbRegion) (base size : BitVec 64) (i : ℕ) : Prop :=
  (List.range rgn.cnt).find? (fun i => (rgn.region i).base ≤ base &&
    base + size ≤ (rgn.region i).base + (rgn.region i).size) = some i

/-- The range begins and ends within region `i`, so that something remains on both sides. -/
structure Splits (rgn : LmbRegion) (base size : BitVec 64) (i : ℕ) : Prop where
  first : rgn.HoldsFirst base size i
  front : (rgn.region i).base ≠ base
  back : (rgn.region i).base + (rgn.region i).size ≠ base + size

/-- Region `i`, cut off at the beginning of the range. -/
def cutAt (rgn : LmbRegion) (base : BitVec 64) (i : ℕ) : LmbRegion :=
  rgn.set i ⟨(rgn.region i).base, base - (rgn.region i).base⟩

/-- What `lmb_free` does when something remains on both sides. -/
theorem Splits.free_eq (h : rgn.Splits base size i) :
    rgn.free base size = (rgn.cutAt base i).addRegion (base + size)
      ((rgn.region i).base + (rgn.region i).size - (base + size)) := by
  rw [free]
  rw [h.first]
  dsimp only
  rw [if_neg fun heq => h.front heq.1, if_neg h.front, if_neg h.back]
  rfl

/-- Unless a region is split, `lmb_free` changes nothing when it fails. -/
theorem free_neg (h : rgn.free base size = some (rgn', ret)) (hret : ret < 0) :
    rgn' = rgn ∨ ∃ i, rgn.Splits base size i := by
  rw [free] at h
  dsimp only at h
  split at h
  case h_1 =>
    cases h
    exact .inl rfl
  case h_2 i hfind =>
    split at h
    · obtain ⟨_, -, heq⟩ := Option.map_eq_some_iff.mp h
      cases heq
      cases hret
    split at h
    · cases h
      cases hret
    split at h
    · cases h
      cases hret
    · next hfront hback => exact .inr ⟨i, hfind, hfront, hback⟩

end LmbRegion

/-! ### The calls -/

/-- A call of the interface. -/
inductive LmbOp where
  | add (base size : BitVec 64)
  | reserve (base size : BitVec 64)
  | free (base size : BitVec 64)
  | alloc (size align maxAddr : BitVec 64)

namespace LmbOp

/-- The call fails and leaves the tables `lmb'`: it returns a negative number, or the address 0. -/
def FailsWith (lmb lmb' : Lmb) : LmbOp → Prop
  | add base size => ∃ ret < 0, lmbAdd lmb base size = some (lmb', ret)
  | reserve base size => ∃ ret < 0, lmbReserve lmb base size = some (lmb', ret)
  | free base size => ∃ ret < 0, lmbFree lmb base size = some (lmb', ret)
  | alloc size align maxAddr => lmbAllocBase lmb size align maxAddr = .ret 0 lmb'

/-- A range is freed that begins and ends within a region of a full table, and no region would take
what is behind the range. The last condition is there for ranges that wrap around: the region is
shortened. -/
def SplitsFull (lmb : Lmb) : LmbOp → Prop
  | free base size => lmb.reserved.cnt = maxLmbRegions ∧ ∃ i, lmb.reserved.Splits base size i ∧
      (∀ j < lmb.reserved.cnt, (lmb.reserved.cutAt base i).stopsAt (base + size)
        ((lmb.reserved.region i).base + (lmb.reserved.region i).size - (base + size)) j = false) ∧
      (lmb.reserved.region i).base + (lmb.reserved.region i).size ≠ base
  | _ => False

end LmbOp

/-- The region lists are the same. -/
def SameRegions (lmb lmb' : Lmb) : Prop :=
  lmb'.memory.regions = lmb.memory.regions ∧ lmb'.reserved.regions = lmb.reserved.regions

theorem SameRegions.of_eq {lmb lmb' : Lmb} (h : lmb' = lmb) : SameRegions lmb lmb' := by
  rw [h]
  exact ⟨rfl, rfl⟩

variable {lmb lmb' : Lmb} {base size align maxAddr : BitVec 64}

/-- The search returns 0 only when the table is full. -/
theorem allocLoop_zero {lmbbase : BitVec 64} {fuel : ℕ} {start : BitVec 64}
    (h : allocLoop lmb lmbbase size align fuel start = .done (.ret 0 lmb')) : lmb' = lmb := by
  induction fuel generalizing start with
  | zero => cases h
  | succ fuel ih =>
    rw [allocLoop] at h
    split at h
    · next hgo =>
      split at h
      · split at h
        · cases h
        · next rgn r hadd =>
          injection h with h
          injection h with haddr hlmb
          split at haddr
          · next hr =>
            rw [← hlmb, (LmbRegion.addRegion_neg hadd hr).1]
          · exact absurd haddr hgo.1
      · dsimp only at h
        split at h
        · cases h
        · exact ih h
    · cases h

theorem allocRegions_zero {n : ℕ} (h : allocRegions lmb size align maxAddr n = .ret 0 lmb') :
    lmb' = lmb := by
  induction n with
  | zero =>
    cases h
    rfl
  | succ n ih =>
    rw [allocRegions] at h
    split at h
    · exact ih h
    split at h
    · next r hloop =>
      rw [h] at hloop
      exact allocLoop_zero hloop
    · exact ih h

/-- A region that was cut off is another one, unless it was cut off at its end. -/
theorem LmbRegion.regions_cutAt_ne {rgn : LmbRegion} (hi : i < rgn.cnt)
    (h : (rgn.region i).base + (rgn.region i).size ≠ base) : (rgn.cutAt base i).regions ≠ rgn.regions := by
  intro heq
  have hregion := map_inj_left.mp heq i (mem_range.mpr hi)
  rw [cutAt, set_region, if_pos rfl] at hregion
  have hsize : base - (rgn.region i).base = (rgn.region i).size := congrArg LmbProperty.size hregion
  exact h (by bv_omega)

/-- A call that fails leaves the tables as they were, unless it frees a range within a region of a
full table. -/
theorem failsWith_sameRegions_iff (lmb : Lmb) (op : LmbOp) :
    (∀ lmb', op.FailsWith lmb lmb' → SameRegions lmb lmb') ↔ ¬ op.SplitsFull lmb := by
  cases op with
  | add base size | reserve base size =>
    refine iff_of_true ?_ id
    rintro lmb' ⟨ret, hret, h⟩
    obtain ⟨⟨rgn, ret'⟩, hadd, heq⟩ := Option.map_eq_some_iff.mp h
    cases heq
    rw [(LmbRegion.addRegion_neg hadd hret).1]
    exact .of_eq rfl
  | alloc size align maxAddr =>
    refine iff_of_true ?_ id
    intro lmb' h
    exact .of_eq (allocRegions_zero h)
  | free base size =>
    constructor
    · rintro hsame ⟨hfull, i, hsplit, hstop, hend⟩
      have hcut : (lmb.reserved.cutAt base i).cnt = maxLmbRegions := hfull
      have hadd := LmbRegion.addRegion_full hcut hstop
      have hfree : lmbFree lmb base size = some
        ({ lmb with reserved := lmb.reserved.cutAt base i }, -1) := by
        rw [lmbFree, hsplit.free_eq, hadd]
        rfl
      have hi : i < lmb.reserved.cnt := mem_range.mp (mem_of_find?_eq_some hsplit.first)
      exact LmbRegion.regions_cutAt_ne hi hend (hsame _ ⟨-1, by decide, hfree⟩).2
    · rintro hno lmb' ⟨ret, hret, h⟩
      obtain ⟨⟨rgn, ret'⟩, hfree, heq⟩ := Option.map_eq_some_iff.mp h
      cases heq
      rcases LmbRegion.free_neg hfree hret with rfl | ⟨i, hsplit⟩
      · exact .of_eq rfl
      rw [hsplit.free_eq] at hfree
      obtain ⟨rfl, hfull, hstop⟩ := LmbRegion.addRegion_neg hfree hret
      -- the region may only have been cut off at its end
      have hend : (lmb.reserved.region i).base + (lmb.reserved.region i).size = base := by
        by_contra hend
        exact hno ⟨hfull, i, hsplit, hstop, hend⟩
      have hcut : lmb.reserved.cutAt base i = lmb.reserved := by
        have hregion : (⟨(lmb.reserved.region i).base, base - (lmb.reserved.region i).base⟩ :
            LmbProperty) = lmb.reserved.region i := by
          rw [← hend, BitVec.add_comm, BitVec.add_sub_cancel]
        rw [LmbRegion.cutAt, hregion, LmbRegion.set, Function.update_eq_self]
      rw [hcut]
      exact .of_eq rfl

/-- Eight regions of 4 KiB, with gaps of 4 KiB. -/
def fullTable : LmbRegion := ⟨8, fun i =>
    ⟨BitVec.ofNat 64 (0x10000 + 0x2000 * i), 0x1000⟩, by decide⟩

/-- A hole in the first of eight regions: the call fails, and the end of the region is lost. -/
theorem not_sameRegions_fullTable : ∃ lmb', (LmbOp.free 0x10400 0x400).FailsWith
    ⟨fullTable, fullTable⟩ lmb' ∧ lmb'.reserved.region 0 = ⟨0x10000, 0x400⟩ ∧
    ¬ SameRegions ⟨fullTable, fullTable⟩ lmb' := by
  refine ⟨⟨fullTable, fullTable.cutAt 0x10400 0⟩, ⟨-1, by decide, ?_⟩, rfl, fun h => ?_⟩
  · rfl
  · exact LmbRegion.regions_cutAt_ne (by decide) (by decide) h.2

end UBoot.Memory
