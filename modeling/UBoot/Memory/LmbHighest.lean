import UBoot.Memory.LmbAlloc

/-!
# Allocation takes the highest fit

`__lmb_alloc_base` tries one address per memory region and jumps below every reserved region in its
way. No free range is missed: an aligned address between two that are tried overlaps the reserved
region that was jumped over. The order of the reserved regions plays no part.
-/

namespace UBoot.Memory

open UBoot.Common LmbRegion

/-- A range that may be allocated at `a` in memory region `i`. -/
structure FitsAt (lmb : Lmb) (size align maxAddr : BitVec 64) (i a : ℕ) : Prop where
  pos : 0 < a
  aligned : align.toNat ∣ a
  above : (lmb.memory.region i).span.lo ≤ a
  inside : a + size.toNat ≤ (lmb.memory.region i).span.hi
  below : maxAddr ≠ allocAnywhere → a + size.toNat ≤ maxAddr.toNat
  free : IsFree lmb.reserved a size.toNat

/-- The highest address in the last memory region that has one. -/
def HighestFit (lmb : Lmb) (size align maxAddr : BitVec 64) (a : ℕ) : Prop :=
  ∃ i < lmb.memory.cnt, FitsAt lmb size align maxAddr i a ∧
    (∀ a', FitsAt lmb size align maxAddr i a' → a' ≤ a) ∧ ∀ j, i < j → j < lmb.memory.cnt →
    ∀ a', ¬ FitsAt lmb size align maxAddr j a'

/-- The function returns the highest address. It returns zero if there is none, or if the table of
reserved regions is full. -/
def Alloc.IsHighest (lmb : Lmb) (size align maxAddr : BitVec 64) : Alloc → Prop
  | .ret a _ => HighestFit lmb size align maxAddr a.toNat ∨
      a = 0 ∧ ((∀ i < lmb.memory.cnt, ∀ a', ¬ FitsAt lmb size align maxAddr i a') ∨
      lmb.reserved.cnt = maxLmbRegions)
  | _ => False

/-- `lmb_add_region` runs off the table when it is empty and the first two entries that were there
are adjacent. -/
def AddsSafely (rgn : LmbRegion) : Prop := 0 < rgn.cnt ∨ rgn.regionsAdjacent 0 1 = 0

theorem AddsSafely.addRegion {rgn : LmbRegion} (h : AddsSafely rgn) (base size : BitVec 64) :
    ∃ rgn' ret, rgn.addRegion base size = some (rgn', ret) := by
  rcases Nat.eq_zero_or_pos rgn.cnt with h0 | hpos
  · obtain ⟨rgn', ret, hadd, -⟩ := addRegion_emptied h0 (h.resolve_left (by omega)) base size
    exact ⟨rgn', ret, hadd⟩
  · by_cases hd : rgn.cnt = 1 ∧ (rgn.region 0).size = 0
    · exact ⟨_, _, if_pos hd⟩
    · obtain ⟨rgn', ret, hadd, -⟩ := addRegion_step hpos hd base size
      exact ⟨rgn', ret, hadd⟩

section Highest

variable {lmb : Lmb} {size align maxAddr : BitVec 64} {k : ℕ}
  (hmem : ∀ i < lmb.memory.cnt, (lmb.memory.region i).span.hi < 2 ^ 64)
  (hres : ∀ j < lmb.reserved.cnt, (lmb.reserved.region j).span.hi < 2 ^ 64)
    (hadds : AddsSafely lmb.reserved)
  (hk : align.toNat = 2 ^ k) (hsize : 0 < size.toNat) (hmax : maxAddr = allocAnywhere ∨
    size.toNat ≤ maxAddr.toNat)

include hmem hres hsize hmax

/-- When nothing wraps around, the candidates of the search are the ranges that may be allocated. -/
theorem candidate_iff_fitsAt {i a : ℕ} (hi : i < lmb.memory.cnt) :
    Candidate lmb size align maxAddr i a ↔ FitsAt lmb size align maxAddr i a := by
  have hlt := hmem i hi
  constructor
  · intro h
    have htop := firstTry_add_le align (h.eligible.le_searchTop hmax.resolve_left)
    obtain ⟨hin, hlim⟩ := le_searchTop_iff.mp ((Nat.add_le_add_right h.below _).trans htop)
    exact ⟨h.pos, h.aligned, h.above, hin, hlim, h.free.isFree hres (hin.trans_lt hlt)⟩
  · intro h
    have habove := h.above
    have hin := h.inside
    have htop := le_searchTop_iff.mpr ⟨hin, h.below⟩
    have hle : searchTop (lmb.memory.region i) maxAddr ≤ (lmb.memory.region i).span.hi :=
      (le_searchTop_iff.mp le_rfl).1
    rw [LmbProperty.span_lo] at habove
    have hhi := LmbProperty.span_hi (lmb.memory.region i)
    have htry : a ≤ firstTry (lmb.memory.region i) size align maxAddr := le_roundDown h.aligned (by omega)
    refine ⟨⟨by omega, ?_⟩, h.pos, h.aligned, h.above, htry, .inr (hin.trans_lt hlt), fun j hj => ?_⟩
    · by_cases h0 : maxAddr = allocAnywhere
      · exact .inl h0
      · have hbelow := h.below h0
        exact .inr (by omega)
    · have hor := h.free j hj
      have hlt' := hres j hj
      omega

include hk

/-- `__lmb_alloc_base` takes the highest address that fits. -/
theorem lmbAllocBase_takesHighestFit :
    (lmbAllocBase lmb size align maxAddr).TakesHighest lmb size align (FitsAt lmb size align maxAddr) := by
  have hiff : ∀ {i a}, i < lmb.memory.cnt →
      (Candidate lmb size align maxAddr i a ↔ FitsAt lmb size align maxAddr i a) := fun hi =>
    candidate_iff_fitsAt hmem hres hsize hmax hi
  rcases lmbAllocBase_takesHighest hk lmb size maxAddr with ⟨a, ⟨i, hi, hcand, hhigh, hno⟩,
      heq⟩ | ⟨hnone, heq⟩
  · exact .inl ⟨a, ⟨i, hi, (hiff hi).mp hcand, fun a' ha' => hhigh a' ((hiff hi).mpr ha'),
      fun j hij hj a' ha' => hno j hij hj a' ((hiff hj).mpr ha')⟩, heq⟩
  · exact .inr ⟨fun i hi a ha => hnone i hi a ((hiff hi).mpr ha), heq⟩

include hadds

/-- When no address wraps around and the alignment is a power of two, `__lmb_alloc_base` returns the
highest address in the last memory region that has one. It returns zero if there is none, or if the
table of reserved regions is full. -/
theorem lmbAllocBase_isHighest : (lmbAllocBase lmb size align maxAddr).IsHighest lmb size
    align maxAddr := by
  rcases lmbAllocBase_takesHighestFit hmem hres hk hsize hmax with ⟨a, hhigh, heq⟩ | ⟨hnone, heq⟩
  · obtain ⟨rgn', ret, hadd⟩ := hadds.addRegion a (alignUp size align)
    rw [heq, reserveAt, hadd]
    by_cases hneg : ret < 0
    · exact .inr ⟨if_pos hneg, .inr (addRegion_neg hadd hneg).2.1⟩
    · exact .inl (by rw [if_neg hneg]; exact hhigh)
  · rw [heq]
    exact .inr ⟨rfl, .inl hnone⟩

end Highest

/-- 8 KiB below `0x8000`, with a reserved region in the way. -/
theorem lmbAllocBase_isHighest_below :
    (lmbAllocBase unorderedLmb 0x2000 0x1000 0x8000).addr = 0x4000 ∧
    (lmbAllocBase unorderedLmb 0x2000 0x1000 0x8000).IsHighest unorderedLmb 0x2000 0x1000 0x8000 :=
  ⟨by decide +kernel, lmbAllocBase_isHighest (k := 12) smallMemory_bound validReserved_unordered.bound
    (.inl (by decide)) rfl (by decide) (.inr (by decide))⟩

/-- The memory of the examples and a dummy reservation. -/
def smallLmb : Lmb := ⟨smallMemory, ⟨1, fun _ => ⟨0, 0⟩, one_le_maxLmbRegions⟩⟩

/-- With the alignment 3 the address returned is not a multiple of it. -/
theorem not_isHighest_align_three : (lmbAllocBase smallLmb 0x10 3 0).addr = 0x10ff0 ∧
    ¬ (lmbAllocBase smallLmb 0x10 3 0).IsHighest smallLmb 0x10 3 0 := by
  have haddr : (lmbAllocBase smallLmb 0x10 3 0).addr = 0x10ff0 := by decide +kernel
  refine ⟨haddr, fun h => ?_⟩
  cases halloc : lmbAllocBase smallLmb 0x10 3 0 with
  | ret a lmb' =>
    rw [halloc] at haddr h
    obtain rfl : a = 0x10ff0 := haddr
    rcases h with ⟨i, -, hfit, -⟩ | ⟨h0, -⟩
    · exact absurd hfit.aligned (by decide)
    · cases h0
  | outOfBounds | hang =>
    rw [halloc] at h
    exact h

end UBoot.Memory
