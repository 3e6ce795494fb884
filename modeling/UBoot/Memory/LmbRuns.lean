import UBoot.Common.Run
import UBoot.Memory.LmbFailure

/-!
# The reserved set is what was reserved

Runs of `lmb_reserve` and `lmb_free` from `lmb_init`, against the set of addresses that were
reserved and not freed since. The table follows this set as long as nothing is reserved into a table
that `lmb_free` has emptied, where `lmb_add_region` still compares with the entries that were there
before.
-/

namespace UBoot.Memory

open UBoot.Common LmbRegion List LmbProperty

/-- Regions in increasing order, with gaps, none empty, none running over the end of the address
space. -/
structure Within (rgn : LmbRegion) : Prop where
  separated : Separated rgn.spans
  bounded : ∀ r ∈ rgn.spans, r.hi ≤ 2 ^ 64

/-- None reaches the end of the address space either. -/
structure Tidy (rgn : LmbRegion) : Prop extends Within rgn where
  below : ∀ r ∈ rgn.spans, r.hi < 2 ^ 64

variable {base size : BitVec 64} {rgn : LmbRegion}

theorem Tidy.end_lt (h : Tidy rgn) {i : ℕ} (hi : i < rgn.cnt) :
    (rgn.region i).base.toNat + (rgn.region i).size.toNat < 2 ^ 64 :=
  h.below _ (span_mem_spans hi)

namespace Within

variable {rgn rgn' : LmbRegion} {i : ℕ}

section

variable (h : Within rgn)

include h

theorem size_pos (hi : i < rgn.cnt) : 0 < (rgn.region i).size.toNat := by
  have hlt := h.separated.nonempty _ (span_mem_spans hi)
  simp only [LmbProperty.span] at hlt
  omega

theorem end_le (hi : i < rgn.cnt) :
    (rgn.region i).base.toNat + (rgn.region i).size.toNat ≤ 2 ^ 64 :=
  h.bounded _ (span_mem_spans hi)

theorem gap {j : ℕ} (hij : i < j) (hj : j < rgn.cnt) :
    (rgn.region i).base.toNat + (rgn.region i).size.toNat < (rgn.region j).base.toNat := by
  have hsep := h.separated
  rw [spans_split hj] at hsep
  exact (separated_append_cons.mp hsep).2.2.1 _ ((mem_take_spans hj.le).mpr ⟨i, hij, rfl⟩)

/-- Only the first region is at address 0, and only the last one reaches the end of the address
space. -/
theorem eq_first (hi : i < rgn.cnt) (h0 : (rgn.region i).base.toNat = 0) : i = 0 :=
  Nat.eq_zero_of_not_pos fun hpos => by
    have := h.gap hpos hi
    omega

theorem eq_last (hi : i < rgn.cnt) (hend : (rgn.region i).base.toNat +
    (rgn.region i).size.toNat = 2 ^ 64) : i = rgn.cnt - 1 := by
  by_contra hne
  have := h.gap (show i < rgn.cnt - 1 by omega) (by omega)
  have := (rgn.region (rgn.cnt - 1)).base.isLt
  omega

theorem ordered : rgn.Ordered := by
  intro i j hij hj
  rcases eq_or_lt_of_le hij with rfl | hlt
  · exact BitVec.le_refl _
  · have hgap := h.gap hlt hj
    exact BitVec.le_def.mpr (by omega)

theorem not_dummy : ¬ (rgn.cnt = 1 ∧ (rgn.region 0).size = 0) := by
  rintro ⟨hcnt, hsize⟩
  have hpos := h.size_pos (i := 0) (by omega)
  rw [hsize] at hpos
  cases hpos

/-- Putting a region between the entries in front of `i` and those from `k` on, with gaps on both
sides. -/
theorem of_replace {k : ℕ} (hi : i ≤ rgn.cnt) (hik : i ≤ k)
    (hspans : rgn'.spans = rgn.spans.take i ++ (⟨base, size⟩ : LmbProperty).span :: rgn.spans.drop k)
    (hpos : 0 < size.toNat) (hbound : base.toNat + size.toNat ≤ 2 ^ 64)
    (hbefore : ∀ j < i, (rgn.region j).base.toNat + (rgn.region j).size.toNat < base.toNat)
    (hafter : ∀ j, k ≤ j → j < rgn.cnt → base.toNat + size.toNat < (rgn.region j).base.toNat) :
      Within rgn' := by
  have hsub : (rgn.spans.take i ++ rgn.spans.drop k).Sublist rgn.spans := by
    conv_rhs => rw [← take_append_drop i rgn.spans]
    exact List.Sublist.append (List.Sublist.refl _) (drop_sublist_drop_left _ hik)
  constructor
  · rw [hspans, separated_append_cons]
    refine ⟨h.separated.sublist hsub, Nat.lt_add_of_pos_right hpos, fun q hq => ?_, fun q hq => ?_⟩
    · obtain ⟨j, hj, rfl⟩ := (mem_take_spans hi).mp hq
      exact hbefore j hj
    · obtain ⟨j, hj, hlt, rfl⟩ := mem_drop_spans.mp hq
      exact hafter j hj hlt
  · rw [hspans]
    exact forall_mem_append.mpr ⟨fun q hq => h.bounded q (mem_of_mem_take hq),
      forall_mem_cons.mpr ⟨hbound, fun q hq => h.bounded q (mem_of_mem_drop hq)⟩⟩

/-- A table whose addresses are those of tidy ones. -/
theorem tidy (hlt : ∀ a, Covers rgn.spans a → a + 1 < 2 ^ 64) : Tidy rgn := by
  refine ⟨h, fun r hr => ?_⟩
  have hne := h.separated.nonempty r hr
  have hlast := hlt (r.hi - 1) ⟨r, hr, by omega, by omega⟩
  omega

end

/-! ## Adding a region -/

section Add

variable {base size : BitVec 64}

/-- What is asked of a region to be added: it is not empty, does not wrap around, and is disjoint
from the table. -/
structure Fits (rgn : LmbRegion) (base size : BitVec 64) : Prop where
  pos : 0 < size.toNat
  bound : base.toNat + size.toNat ≤ 2 ^ 64
  apart : ∀ a ∈ (⟨base, size⟩ : LmbProperty).span, ¬ Covers rgn.spans a

/-- A region at the end of the address space is taken for a neighbour of one at address 0: the new
region is the one and the first region the other; or the last region is the one and the new region
the other, unless the first region follows it. -/
def RunsAround (rgn : LmbRegion) (base size : BitVec 64) : Prop :=
  base.toNat + size.toNat = 2 ^ 64 ∧ (rgn.region 0).base = 0 ∨
    base = 0 ∧ (rgn.region (rgn.cnt - 1)).span.hi = 2 ^ 64 ∧ (rgn.region 0).base ≠ size

/-- The entry that is extended, put together with the new region. It may be the whole address space
then. -/
theorem extends_toNat (h : Within rgn) (hb : base.toNat + size.toNat ≤ 2 ^ 64)
    (hno : ¬ RunsAround rgn base size) {p : LmbProperty} (he : Extends rgn base size i p) :
    (base.toNat + size.toNat = (rgn.region i).base.toNat ∧ p.base.toNat = base.toNat ∧
        p.size.toNat = (size.toNat + (rgn.region i).size.toNat) % 2 ^ 64) ∨
      ((rgn.region i).base.toNat + (rgn.region i).size.toNat = base.toNat ∧
        p.base.toNat = (rgn.region i).base.toNat ∧ p.size.toNat = (rgn.region i).size.toNat +
        size.toNat) := by
  obtain ⟨hup, hdown⟩ := not_or.mp hno
  have hend := h.end_le he.lt
  rcases he.entry with ⟨heq, rfl⟩ | ⟨hne, heq, rfl⟩
  · refine .inl ⟨?_, rfl, by rw [BitVec.toNat_add, Nat.add_comm]⟩
    by_contra hwrap
    -- a region that ends with the address space, and one at address 0
    have h0 : (rgn.region i).base = 0 := by bv_omega
    obtain rfl := h.eq_first he.lt (by rw [h0]; rfl)
    exact hup ⟨by bv_omega, h0⟩
  · have hsum : (rgn.region i).base.toNat + (rgn.region i).size.toNat = base.toNat := by
      by_contra hwrap
      have hlast : (rgn.region i).base.toNat + (rgn.region i).size.toNat = 2 ^ 64 := by bv_omega
      have h0 : base = 0 := by bv_omega
      refine hdown ⟨h0, by rw [← h.eq_last he.lt hlast]; exact hlast, fun hfollow => ?_⟩
      -- the search stops at the first region
      have hzero : i = 0 := Nat.eq_zero_of_not_pos fun hpos => by
        have hstop := he.first 0 hpos
        rw [stopsAt, decide_eq_false_iff_not, addrsAdjacent, hfollow, h0, if_pos (by simp)] at hstop
        exact hstop (.inr (by decide))
      subst hzero
      exact hne (by rw [hfollow, h0]; simp)
    refine .inr ⟨hsum, rfl, BitVec.toNat_add_of_lt ?_⟩
    by_contra hwrap
    have h0 : (rgn.region i).base.toNat = 0 := by omega
    obtain rfl := h.eq_first he.lt h0
    exact hup ⟨by omega, BitVec.eq_of_toNat_eq h0⟩

section

variable (h : Within rgn) (hf : Fits rgn base size)

include h hf

theorem Fits.before_or_after (hi : i < rgn.cnt) :
    (rgn.region i).base.toNat + (rgn.region i).size.toNat ≤ base.toNat ∨
      base.toNat + size.toNat ≤ (rgn.region i).base.toNat := by
  by_contra hcon
  have hpos := h.size_pos hi
  have hpos' := hf.pos
  -- the larger of the two bases lies in both
  refine hf.apart (max base.toNat (rgn.region i).base.toNat) ?_ ⟨_, span_mem_spans hi, ?_⟩
  · simp only [mem_span]
    omega
  · simp only [mem_span]
    omega

/-- A region that is not adjacent has a gap to the new one. -/
theorem Fits.gap (hi : i < rgn.cnt) (hstop : rgn.stopsAt base size i = false) :
    (rgn.region i).base.toNat + (rgn.region i).size.toNat < base.toNat ∨
      base.toNat + size.toNat < (rgn.region i).base.toNat := by
  have hor := hf.before_or_after h hi
  rw [stopsAt, decide_eq_false_iff_not, not_or, addrsAdjacent] at hstop
  obtain ⟨-, hadj⟩ := hstop
  split_ifs at hadj <;> bv_omega

/-- The table after the new region was added. -/
structure Added (rgn : LmbRegion) (base size : BitVec 64) (rgn' : LmbRegion) : Prop where
  within : Within rgn'
  pos : 0 < rgn'.cnt
  covers : ∀ a, Covers rgn'.spans a ↔ a ∈ (⟨base, size⟩ : LmbProperty).span ∨ Covers rgn.spans a

/-- A region reached the end of the address space, and the table has come down to a single one,
which is the dummy region or does not run over the end. -/
def Folded (rgn rgn' : LmbRegion) : Prop :=
  (∃ r ∈ rgn.spans, r.hi = 2 ^ 64) ∧ rgn'.cnt = 1 ∧
    (rgn'.region 0 = ⟨0, 0⟩ ∨ 0 < (rgn'.region 0).size.toNat ∧ (rgn'.region 0).span.hi ≤ 2 ^ 64)

theorem added_extend (hno : ¬ RunsAround rgn base size) {p : LmbProperty}
    (he : Extends rgn base size i p)
    (hnext : i + 1 < rgn.cnt → addrsAdjacent p.base p.size (rgn.region (i + 1)).base
      (rgn.region (i + 1)).size = 0) : Added rgn base size (rgn.set i p) ∨ Folded rgn (rgn.set i p) := by
  have hi := he.lt
  have hb := hf.bound
  have hpos := h.size_pos hi
  have hend := h.end_le hi
  have hp := extends_toNat h hb hno he
  by_cases hwhole : size.toNat + (rgn.region i).size.toNat = 2 ^ 64
  · -- nothing is left around the two
    have hother : ∀ j < rgn.cnt, j = i := by
      intro j hj
      have hor := hf.before_or_after h hj
      have hposj := h.size_pos hj
      have hlt := (rgn.region j).base.isLt
      by_contra hne
      rcases Nat.lt_or_gt_of_ne hne with hlt | hlt
      · have := h.gap hlt hi
        omega
      · have := h.gap hlt hj
        omega
    have hzero := hother 0 (by omega)
    have hone : rgn.cnt = 1 := by
      by_contra hne
      have := hother 1 (by omega)
      omega
    refine .inr ⟨⟨_, span_mem_spans hi, by rw [span_hi]; omega⟩, hone, .inl ?_⟩
    rw [set_region, if_pos hzero]
    exact eq_zero_of_toNat (by omega) (by omega)
  left
  refine ⟨h.of_replace hi.le (Nat.le_succ i) (spans_set_split hi p) (by omega) (by omega) ?_ ?_, ?_,
    fun a => ?_⟩
  · intro j hj
    have hgap := h.gap hj hi
    have hnew := hf.gap h (by omega) (he.first j hj)
    omega
  · intro j hij hj
    -- behind entry `i` only the next one can come close
    have hgap := h.gap (show i < j by omega) hj
    have hnew := hf.before_or_after h hj
    by_cases heq : j = i + 1
    · subst heq
      have hne : (rgn.region (i + 1)).base.toNat ≠ p.base.toNat + p.size.toNat := by
        intro heq
        have hadj := hnext hj
        have hlt := (rgn.region (i + 1)).base.isLt
        rw [addrsAdjacent, if_pos (BitVec.eq_of_toNat_eq
          (by rw [BitVec.toNat_add_of_lt (by omega), heq]))] at hadj
        cases hadj
      omega
    · have hgap₁ := h.gap (show i < i + 1 by omega) (by omega)
      have hgap₂ := h.gap (show i + 1 < j by omega) hj
      have hnew₁ := hf.before_or_after h (i := i + 1) (by omega)
      omega
  · exact Nat.zero_lt_of_lt hi
  · rw [spans_set_split hi, covers_append_cons, covers_split hi, ← or_assoc]
    refine or_congr_left ?_
    simp only [mem_span]
    omega

theorem added_merge (hno : ¬ RunsAround rgn base size) {p : LmbProperty}
    (he : Extends rgn base size i p) (hlt : i + 1 < rgn.cnt)
    (hnext : addrsAdjacent p.base p.size (rgn.region (i + 1)).base (rgn.region (i + 1)).size ≠ 0)
    (hcnt : rgn'.cnt = rgn.cnt - 1)
    (hspans : rgn'.spans = rgn.spans.take i ++
      (⟨p.base, p.size + (rgn.region (i + 1)).size⟩ : LmbProperty).span :: rgn.spans.drop (i + 2)) :
    Added rgn base size rgn' ∨ Folded rgn rgn' := by
  have hi := he.lt
  have hb := hf.bound
  have hpos := h.size_pos hi
  have hpos₁ := h.size_pos hlt
  have hend := h.end_le hi
  have hend₁ := h.end_le hlt
  have hlo₁ := (rgn.region (i + 1)).base.isLt
  have hp := extends_toNat h hb hno he
  have hgap := h.gap (show i < i + 1 by omega) hlt
  have hnew₁ := hf.before_or_after h hlt
  by_cases hfold : p.base.toNat = 0 ∧ (rgn.region (i + 1)).base.toNat +
    (rgn.region (i + 1)).size.toNat = 2 ^ 64
  · -- the two are the first and the last region
    have hzero : i = 0 := Nat.eq_zero_of_not_pos fun h0 => by
      have hgap₀ := h.gap h0 hi
      have hnew₀ := hf.before_or_after h (i := 0) (by omega)
      have hpos₀ := h.size_pos (i := 0) (by omega)
      omega
    have hlast := h.eq_last hlt hfold.2
    subst hzero
    have hregion : (rgn'.region 0).span = (⟨p.base, p.size + (rgn.region 1).size⟩ : LmbProperty).span := by
      have hget := congrArg (fun l => l[0]?) hspans
      rw [getElem?_spans, if_pos (by omega)] at hget
      simpa using hget
    have hlo := congrArg Span.lo hregion
    have hhi := congrArg Span.hi hregion
    simp only [span_lo, span_hi] at hlo hhi
    refine .inr ⟨⟨_, span_mem_spans hlt, by rw [span_hi]; exact hfold.2⟩, by omega, ?_⟩
    rw [BitVec.toNat_add] at hhi
    rcases Nat.eq_zero_or_pos (rgn'.region 0).size.toNat with hs | hs
    · exact .inl (eq_zero_of_toNat (by omega) hs)
    · exact .inr ⟨hs, by rw [span_hi]; omega⟩
  left
  -- the two touch where the extended entry ends and the next begins
  have htouch : (rgn.region (i + 1)).base.toNat = p.base.toNat + p.size.toNat := by
    unfold addrsAdjacent at hnext
    split_ifs at hnext <;> bv_omega
  have hsize : (p.size + (rgn.region (i + 1)).size).toNat = p.size.toNat +
    (rgn.region (i + 1)).size.toNat :=
    BitVec.toNat_add_of_lt (by omega)
  refine ⟨h.of_replace hi.le (by omega) hspans (by omega) (by omega) ?_ ?_, by omega, fun a => ?_⟩
  · intro j hj
    have hgapj := h.gap hj hi
    have hnewj := hf.before_or_after h (show j < rgn.cnt by omega)
    have hposj := h.size_pos (show j < rgn.cnt by omega)
    have hstop := hf.gap h (by omega) (he.first j hj)
    omega
  · intro j hij hj
    have hgapj := h.gap (show i + 1 < j by omega) hj
    omega
  · simp only [hspans, covers_append_cons, covers_split (show i < rgn.cnt by omega),
      drop_spans hlt, ← or_assoc]
    refine or_congr_left ?_
    simp only [mem_span]
    omega

end

theorem added_insert (h : Within rgn) (hcnt : 0 < rgn.cnt) (hf : Fits rgn base size)
    (hroom : rgn.cnt < maxLmbRegions) (hstop : ∀ i < rgn.cnt, rgn.stopsAt base size i = false) :
    Added rgn base size (rgn.insertRegion base size hroom) := by
  obtain ⟨k, hk, habove, hbelow, hspans⟩ := insertRegion_spec h.ordered hcnt base size hroom
  refine ⟨h.of_replace hk le_rfl hspans hf.pos hf.bound ?_ ?_, Nat.succ_pos _, fun a => ?_⟩
  · intro j hj
    have hle := BitVec.le_def.mp (hbelow j hj)
    have hgap := hf.gap h (show j < rgn.cnt by omega) (hstop j (by omega))
    omega
  · intro j hkj hj
    have hlt := BitVec.lt_def.mp (habove j hkj hj)
    have hgap := hf.gap h hj (hstop j hj)
    omega
  · rw [hspans, covers_append_cons, take_append_drop]

/-- `lmb_add_region` of a region that fits, into a table that is not empty: it fails, or the
addresses of the region are added, or the table comes down to a single region. -/
theorem addRegion_spec (h : Within rgn) (hcnt : 0 < rgn.cnt) (hf : Fits rgn base size)
    (hno : ¬ RunsAround rgn base size) : ∃ rgn' ret, rgn.addRegion base size = some (rgn', ret) ∧
      (0 ≤ ret → Added rgn base size rgn' ∨ Folded rgn rgn') := by
  obtain ⟨rgn', ret, heq, hstep⟩ := addRegion_step hcnt h.not_dummy base size
  refine ⟨rgn', ret, heq, fun hret => ?_⟩
  cases hstep with
  | same hi hsame =>
    have hpos := hf.pos
    have hor := hf.before_or_after h hi
    simp only [hsame] at hor
    omega
  | extend he hnext => exact added_extend h hf hno he hnext
  | merge he hlt hnext hcnt hspans => exact added_merge h hf hno he hlt hnext hcnt hspans
  | insert hroom hstop => exact .inl (added_insert h hcnt hf hroom hstop)
  | full => cases hret

end Add

/-! ## Freeing a region -/

section Free

variable {base size : BitVec 64} {ret : ℤ}

/-- The table after a range was freed, or not found. -/
structure Freed (rgn : LmbRegion) (base size : BitVec 64) (rgn' : LmbRegion) (ret : ℤ) : Prop where
  within : Within rgn'
  sub : ∀ a, Covers rgn'.spans a → Covers rgn.spans a
  covers : 0 ≤ ret → ∀ a, Covers rgn'.spans a ↔ Covers rgn.spans a ∧ a ∉ (⟨base, size⟩ : LmbProperty).span

theorem Freed.of_covers (h : Within rgn')
    (hc : ∀ a, Covers rgn'.spans a ↔ Covers rgn.spans a ∧ a ∉ (⟨base, size⟩ : LmbProperty).span) :
    Freed rgn base size rgn' ret := ⟨h, fun a ha => ((hc a).mp ha).1, fun _ => hc⟩

/-- Taking entry `i` out. -/
theorem remove (h : Within rgn) (hi : i < rgn.cnt)
    (hspans : rgn'.spans = rgn.spans.take i ++ rgn.spans.drop (i + 1)) : Within rgn' ∧
    ∀ a, Covers rgn'.spans a ↔ Covers rgn.spans a ∧ a ∉ (rgn.region i).span := by
  have hsep := h.separated
  rw [spans_split hi] at hsep
  refine ⟨⟨?_, fun r hr => h.bounded r ?_⟩, fun a => ?_⟩
  · rw [hspans]
    exact (separated_append_cons.mp hsep).1
  · rw [hspans] at hr
    rcases mem_append.mp hr with hr | hr
    · exact mem_of_mem_take hr
    · exact mem_of_mem_drop hr
  · rw [hspans, hsep.covers_remove, ← spans_split hi]

/-- Putting a part of entry `i` in its place, so that the addresses in `q` are lost. -/
theorem shrink (h : Within rgn) (hi : i < rgn.cnt) {p : LmbProperty} (hpos : 0 < p.size.toNat)
    (hlo : (rgn.region i).base.toNat ≤ p.base.toNat)
    (hhi : p.base.toNat + p.size.toNat ≤ (rgn.region i).base.toNat + (rgn.region i).size.toNat)
    {q : Span ℕ} (hq : ∀ a, a ∈ p.span ↔ a ∈ (rgn.region i).span ∧ a ∉ q)
    (hqi : ∀ a ∈ q, a ∈ (rgn.region i).span) :
    Within (rgn.set i p) ∧ ∀ a, Covers (rgn.set i p).spans a ↔ Covers rgn.spans a ∧ a ∉ q := by
  have hsep := h.separated
  rw [spans_split hi] at hsep
  have hend := h.end_le hi
  refine ⟨h.of_replace hi.le (Nat.le_succ i) (spans_set_split hi p) hpos (by omega) ?_ ?_, fun a => ?_⟩
  · intro j hj
    have hgap := h.gap hj hi
    omega
  · intro j hij hj
    have hgap := h.gap (show i < j by omega) hj
    omega
  · rw [spans_set_split hi, covers_append_cons, hsep.covers_remove, ← spans_split hi, hq]
    constructor
    · rintro (⟨hin, hnq⟩ | ⟨hc, hnin⟩)
      · exact ⟨⟨_, span_mem_spans hi, hin⟩, hnq⟩
      · exact ⟨hc, fun haq => hnin (hqi a haq)⟩
    · rintro ⟨hc, hnq⟩
      by_cases hin : a ∈ (rgn.region i).span
      · exact .inl ⟨hin, hnq⟩
      · exact .inr ⟨hc, hin⟩

/-- Adding a region that no entry is or touches. -/
theorem addRegion_apart (h : Within rgn) (hcnt : 0 < rgn.cnt) (hf : Fits rgn base size)
    (hstop : ∀ i < rgn.cnt, rgn.stopsAt base size i = false) :
    ∃ rgn' ret, rgn.addRegion base size = some (rgn', ret) ∧ (0 ≤ ret → Added rgn base size rgn') := by
  obtain ⟨rgn', ret, heq, hstep⟩ := addRegion_step hcnt h.not_dummy base size
  refine ⟨rgn', ret, heq, fun hret => ?_⟩
  have hext : ∀ {i p}, ¬ Extends rgn base size i p := fun he => by
    have hfalse := hstop _ he.lt
    rw [he.stopsAt] at hfalse
    cases hfalse
  cases hstep with
  | same hi hsame =>
    have hfalse := hstop _ hi
    rw [stopsAt, decide_eq_false_iff_not] at hfalse
    exact absurd (.inl hsame) hfalse
  | extend he => exact absurd he hext
  | merge he => exact absurd he hext
  | insert hroom => exact added_insert h hcnt hf hroom hstop
  | full => cases hret

section

variable (h : Within rgn) (hi : i < rgn.cnt)
  (hend : (rgn.region i).base.toNat + (rgn.region i).size.toNat < 2 ^ 64) (hpos : 0 < size.toNat)

include h hi hend hpos

/-- `lmb_free` of a range in the middle of entry `i`: first everything from `base` on is lost, then
what is behind the hole is added again. -/
theorem free_hole (hlo : (rgn.region i).base.toNat < base.toNat)
    (hhi : base.toNat + size.toNat < (rgn.region i).base.toNat + (rgn.region i).size.toNat) :
    ∃ rgn' ret, (rgn.set i ⟨(rgn.region i).base, base - (rgn.region i).base⟩).addRegion (base + size)
        ((rgn.region i).base + (rgn.region i).size - (base + size)) = some (rgn', ret) ∧
      Freed rgn base size rgn' ret := by
  have hsum : (base + size).toNat = base.toNat + size.toNat := BitVec.toNat_add_of_lt (by omega)
  have hsub₁ := BitVec.toNat_sub_of_le (BitVec.le_def.mpr hlo.le)
  have hsub₂ : ((rgn.region i).base + (rgn.region i).size - (base + size)).toNat =
      (rgn.region i).base.toNat + (rgn.region i).size.toNat - (base.toNat + size.toNat) := by
    rw [BitVec.toNat_sub_of_le (BitVec.le_def.mpr (by rw [BitVec.toNat_add_of_lt hend]; omega)),
      BitVec.toNat_add_of_lt hend, hsum]
  obtain ⟨hcut, hcov⟩ := h.shrink (p := ⟨(rgn.region i).base, base - (rgn.region i).base⟩)
    (q := ⟨base.toNat, (rgn.region i).base.toNat + (rgn.region i).size.toNat⟩) hi
    (by simp only [hsub₁]; omega) le_rfl (by simp only [hsub₁]; omega)
    (fun a => by
      simp only [Span.mem_def, span_lo, span_hi]
      omega)
    (fun a ha => by
      simp only [Span.mem_def, span_lo, span_hi] at ha ⊢
      omega)
  have hfits : Fits (rgn.set i ⟨(rgn.region i).base, base - (rgn.region i).base⟩) (base + size)
      ((rgn.region i).base + (rgn.region i).size - (base + size)) := by
    refine ⟨by omega, by omega, fun a ha hca => ((hcov a).mp hca).2 ?_⟩
    simp only [Span.mem_def, span_lo, span_hi] at ha ⊢
    omega
  -- what is behind the hole keeps its distance to the other entries
  have hstop : ∀ j < rgn.cnt, (rgn.set i ⟨(rgn.region i).base, base - (rgn.region i).base⟩).stopsAt
      (base + size) ((rgn.region i).base + (rgn.region i).size - (base + size)) j = false := by
    intro j hj
    have hendj := h.end_le hj
    refine stopsAt_of_gap (by omega) (by omega) ?_
    rw [set_region]
    rcases Nat.lt_trichotomy j i with hlt | rfl | hlt
    · have hgap := h.gap hlt hi
      rw [if_neg hlt.ne]
      omega
    · rw [if_pos rfl]
      dsimp only
      omega
    · have hgap := h.gap hlt hj
      rw [if_neg hlt.ne']
      omega
  obtain ⟨rgn', ret, hadd, hadded⟩ := hcut.addRegion_apart (Nat.zero_lt_of_lt hi) hfits hstop
  refine ⟨rgn', ret, hadd, ?_⟩
  rcases Int.lt_or_le ret 0 with hneg | hret
  · rw [(addRegion_neg hadd hneg).1]
    exact ⟨hcut, fun a ha => ((hcov a).mp ha).1, fun hret => absurd hret (Int.not_le.mpr hneg)⟩
  refine .of_covers (hadded hret).within fun a => ?_
  rw [(hadded hret).covers, hcov]
  have hin : a ∈ (rgn.region i).span → Covers rgn.spans a := fun ha => ⟨_, span_mem_spans hi, ha⟩
  simp only [Span.mem_def, span_lo, span_hi] at hin ⊢
  constructor
  · rintro (ha | ⟨hca, hna⟩)
    · exact ⟨hin (by omega), by omega⟩
    · exact ⟨hca, by omega⟩
  · rintro ⟨hca, hna⟩
    by_cases hbehind : base.toNat ≤ a ∧ a < (rgn.region i).base.toNat + (rgn.region i).size.toNat
    · exact .inl (by omega)
    · exact .inr ⟨hca, hbehind⟩

end

/-- `lmb_free` of a range that ends below the end of the address space. A region that reaches this
end is not found. -/
theorem free_spec (h : Within rgn) (hpos : 0 < size.toNat)
    (hbound : base.toNat + size.toNat < 2 ^ 64) :
    ∃ rgn' ret, rgn.free base size = some (rgn', ret) ∧ Freed rgn base size rgn' ret := by
  have hsum := BitVec.toNat_add_of_lt hbound
  rw [free]
  dsimp only
  split
  · exact ⟨rgn, -1, rfl, h, fun _ ha => ha, fun hret => absurd hret (by decide)⟩
  next i hfind =>
  have hi : i < rgn.cnt := mem_range.mp (mem_of_find?_eq_some hfind)
  have hfound := find?_some hfind
  have hendi := h.end_le hi
  simp only [Bool.and_eq_true, decide_eq_true_iff, BitVec.le_def, hsum] at hfound
  obtain ⟨hlo, hhi⟩ := hfound
  have hend : (rgn.region i).base.toNat + (rgn.region i).size.toNat < 2 ^ 64 := by bv_omega
  have hrgnend := BitVec.toNat_add_of_lt hend
  rw [hrgnend] at hhi
  have hsub : ((rgn.region i).size - size).toNat = (rgn.region i).size.toNat - size.toNat :=
    BitVec.toNat_sub_of_le (BitVec.le_def.mpr (by omega))
  set q := (⟨base, size⟩ : LmbProperty).span with hqdef
  have hqi : ∀ a ∈ q, a ∈ (rgn.region i).span := by
    intro a ha
    simp only [hqdef, mem_span] at ha ⊢
    omega
  have hiff₁ : (rgn.region i).base = base ↔ (rgn.region i).base.toNat = base.toNat := BitVec.toNat_inj.symm
  have hiff₂ : (rgn.region i).base + (rgn.region i).size = base + size ↔
      (rgn.region i).base.toNat + (rgn.region i).size.toNat = base.toNat + size.toNat := by
    rw [← BitVec.toNat_inj, hrgnend, hsum]
  simp only [hiff₁, hiff₂]
  split_ifs with hwhole hfront hback
  · -- the whole entry
    obtain ⟨rgn', hrem, -, hspans⟩ := removeRegion_spec hi
    obtain ⟨hwithin, hcov⟩ := h.remove hi hspans
    refine ⟨rgn', 0, by rw [hrem, Option.map_some], .of_covers hwithin fun a => ?_⟩
    rw [hcov, and_congr_right_iff]
    intro _
    simp only [mem_span]
    omega
  · -- its front
    have hshrink := h.shrink (p := ⟨base + size, (rgn.region i).size - size⟩) hi ?_ ?_ ?_ (fun a => ?_) hqi
    · exact ⟨_, 0, rfl, .of_covers hshrink.1 hshrink.2⟩
    all_goals
      simp only [hqdef, mem_span]
      omega
  · -- its back
    have hshrink := h.shrink (p := ⟨(rgn.region i).base, (rgn.region i).size - size⟩) hi ?_ le_rfl
      ?_ (fun a => ?_) hqi
    · exact ⟨_, 0, rfl, .of_covers hshrink.1 hshrink.2⟩
    all_goals
      simp only [hqdef, mem_span]
      omega
  · exact h.free_hole hi hend hpos (by omega) (by omega)

end Free

end Within

open Within

namespace Tidy

variable {rgn rgn' : LmbRegion} {i : ℕ}

/-- Below the end of the address space nothing runs around it. -/
theorem addRegion_spec (h : Tidy rgn) (hcnt : 0 < rgn.cnt) (hf : Fits rgn base size)
    (hb : base.toNat + size.toNat < 2 ^ 64) : ∃ rgn' ret, rgn.addRegion base size = some (rgn', ret) ∧
      (0 ≤ ret → Tidy rgn' ∧ Added rgn base size rgn') := by
  have hno : ¬ RunsAround rgn base size := by
    rintro (⟨hend, -⟩ | ⟨-, hend, -⟩)
    · omega
    · exact (h.end_lt (show rgn.cnt - 1 < rgn.cnt by omega)).ne hend
  obtain ⟨rgn', ret, hadd, hor⟩ := h.toWithin.addRegion_spec hcnt hf hno
  refine ⟨rgn', ret, hadd, fun hret => ?_⟩
  rcases hor hret with hadded | ⟨⟨r, hr, hend⟩, -⟩
  · refine ⟨hadded.within.tidy fun a ha => ?_, hadded⟩
    rcases (hadded.covers a).mp ha with ha | ⟨r, hr, -, ha⟩
    · simp only [mem_span] at ha
      omega
    · have := h.below r hr
      omega
  · exact absurd hend (h.below r hr).ne

theorem of_freed {ret : ℤ} (h : Tidy rgn) (hf : Freed rgn base size rgn' ret) : Tidy rgn' :=
  hf.within.tidy fun a ha => by
    obtain ⟨r, hr, -, ha⟩ := hf.sub a ha
    have := h.below r hr
    omega

end Tidy

/-! ## Runs -/

/-- A call that changes what is reserved. -/
inductive LmbCall where
  | reserve (base size : BitVec 64)
  | free (base size : BitVec 64)

namespace LmbCall

/-- The effect of a call, and the value returned. -/
def run (lmb : Lmb) : LmbCall → Option (Lmb × ℤ)
  | reserve base size => lmbReserve lmb base size
  | free base size => lmbFree lmb base size

/-- Whether an address is reserved after a call, given whether it was before. -/
def reservedAfter (a : ℕ) (was : Bool) : LmbCall → Bool
  | reserve base size => was || decide (base.toNat ≤ a ∧ a < base.toNat + size.toNat)
  | free base size => was && !decide (base.toNat ≤ a ∧ a < base.toNat + size.toNat)

/-- The addresses that are reserved and not freed since. -/
def outstanding (calls : List LmbCall) (a : ℕ) : Bool := calls.foldl (reservedAfter a) false

/-- The calls considered: the range is not empty and does not wrap around; what is reserved is
disjoint from what is outstanding, and what is freed is outstanding. -/
def Permitted (calls : List LmbCall) : LmbCall → Prop
  | reserve base size => 0 < size.toNat ∧ base.toNat + size.toNat < 2 ^ 64 ∧
      ∀ a ∈ (⟨base, size⟩ : LmbProperty).span, outstanding calls a = false
  | free base size => 0 < size.toNat ∧ base.toNat + size.toNat < 2 ^ 64 ∧
      ∀ a ∈ (⟨base, size⟩ : LmbProperty).span, outstanding calls a = true

/-- The call does not fail. -/
def Succeeds (lmb : Lmb) (call : LmbCall) : Prop := ∀ r ∈ call.run lmb, 0 ≤ r.2

/-- A range that is reserved while no region is left lies below the first of the stale entries, or
is that entry again, and the first two stale entries do not touch. -/
def StaleSafe (lmb : Lmb) : LmbCall → Prop
  | reserve base size => lmb.reserved.cnt = 0 → lmb.reserved.regionsAdjacent 0 1 = 0 ∧
      (base < (lmb.reserved.region 0).base ∨ lmb.reserved.region 0 = ⟨base, size⟩)
  | free _ _ => True

instance (lmb : Lmb) (call : LmbCall) : Decidable (call.Succeeds lmb) :=
  inferInstanceAs (Decidable (∀ r ∈ call.run lmb, 0 ≤ r.2))

instance (lmb : Lmb) : (call : LmbCall) → Decidable (call.StaleSafe lmb)
  | reserve base size => inferInstanceAs (Decidable (lmb.reserved.cnt = 0 →
      lmb.reserved.regionsAdjacent 0 1 = 0 ∧
        (base < (lmb.reserved.region 0).base ∨ lmb.reserved.region 0 = ⟨base, size⟩)))
  | free _ _ => .isTrue trivial

end LmbCall

/-- The tables, unless a call has written outside of them, and the calls made so far. -/
structure LmbTrace where
  lmb : Option Lmb
  calls : List LmbCall

namespace LmbTrace

/-- After `lmb_init`. -/
def init (lmb : Lmb) : LmbTrace := ⟨some (lmbInit lmb), []⟩

/-- One more call. -/
def step (t : LmbTrace) (call : LmbCall) : LmbTrace :=
  ⟨t.lmb.bind fun lmb => (call.run lmb).map Prod.fst, t.calls ++ [call]⟩

/-- The call is a permitted one and does not fail. -/
def Lawful (t : LmbTrace) (call : LmbCall) : Prop :=
  call.Permitted t.calls ∧ ∀ lmb ∈ t.lmb, call.Succeeds lmb

/-- It is also safe with respect to stale entries. -/
def Safe (t : LmbTrace) (call : LmbCall) : Prop :=
  t.Lawful call ∧ ∀ lmb ∈ t.lmb, call.StaleSafe lmb

/-- `lmb_is_reserved` answers what is outstanding. -/
def Exact (t : LmbTrace) : Prop :=
  ∃ lmb ∈ t.lmb, ∀ addr, lmbIsReserved lmb addr = LmbCall.outstanding t.calls addr.toNat

end LmbTrace

/-! ## One call -/

/-- `lmb_is_reserved` on a tidy table. -/
theorem Tidy.isReserved_iff {lmb : Lmb} (h : Tidy lmb.reserved) (addr : BitVec 64) :
    lmbIsReserved lmb addr = true ↔ Covers lmb.reserved.spans addr.toNat := by
  simp only [lmbIsReserved, any_eq_true, mem_range, Bool.and_eq_true, decide_eq_true_iff]
  have hupper : ∀ i < lmb.reserved.cnt,
        ((lmb.reserved.region i).base + (lmb.reserved.region i).size - 1).toNat + 1 =
        (lmb.reserved.region i).base.toNat + (lmb.reserved.region i).size.toNat := by
    intro i hi
    have hend := h.end_lt hi
    have hpos := h.size_pos hi
    bv_omega
  constructor
  · rintro ⟨i, hi, hlo, hhi⟩
    refine ⟨_, span_mem_spans hi, BitVec.le_def.mp hlo, ?_⟩
    have hle := BitVec.le_def.mp hhi
    have := hupper i hi
    rw [span_hi]
    omega
  · rintro ⟨r, hr, hlo, hhi⟩
    obtain ⟨i, hi, rfl⟩ := mem_spans.mp hr
    have := hupper i hi
    rw [span_hi] at hhi
    exact ⟨i, hi, BitVec.le_def.mpr hlo, BitVec.le_def.mpr (by omega)⟩

/-- A table with a single region. -/
theorem within_single {p : LmbProperty} (hcnt : rgn.cnt = 1) (hregion : rgn.region 0 = p)
    (hpos : 0 < p.size.toNat) (hbound : p.span.hi ≤ 2 ^ 64) : Within rgn ∧ ∀ a, Covers rgn.spans a ↔
    a ∈ p.span := by
  have hspans : rgn.spans = [p.span] := by simp [spans, hcnt, hregion]
  refine ⟨⟨?_, ?_⟩, fun a => ?_⟩
  · rw [hspans]
    exact ⟨by simpa using hpos, pairwise_singleton _ _⟩
  · rw [hspans]
    simpa using hbound
  · simp [hspans, Covers]

theorem tidy_single (hcnt : rgn.cnt = 1) (hregion : rgn.region 0 = ⟨base, size⟩)
    (hpos : 0 < size.toNat) (hbound : base.toNat + size.toNat < 2 ^ 64) :
    Tidy rgn ∧ ∀ a, Covers rgn.spans a ↔ a ∈ (⟨base, size⟩ : LmbProperty).span := by
  obtain ⟨hwithin, hcov⟩ := within_single hcnt hregion hpos hbound.le
  refine ⟨hwithin.tidy fun a ha => ?_, hcov⟩
  have hlt := ((hcov a).mp ha).2
  rw [span_hi] at hlt
  exact Nat.lt_of_le_of_lt hlt hbound

/-- The table is the one left by `lmb_init`, or it is tidy and covers what is outstanding. -/
structure LmbTrace.Inv (t : LmbTrace) (lmb : Lmb) : Prop where
  lmb_eq : t.lmb = some lmb
  state : (t.calls = [] ∧ lmb.reserved.cnt = 1 ∧ lmb.reserved.region 0 = ⟨0, 0⟩) ∨
    (t.calls ≠ [] ∧ Tidy lmb.reserved ∧ ∀ a, Covers lmb.reserved.spans a ↔
    LmbCall.outstanding t.calls a = true)

namespace LmbTrace

variable {t : LmbTrace} {lmb : Lmb}

/-- `lmb_reserve` keeps the invariant. -/
theorem Inv.reserve (h : t.Inv lmb) (hs : t.Safe (.reserve base size)) :
    ∃ lmb', (t.step (.reserve base size)).Inv lmb' := by
  obtain ⟨⟨⟨hpos, hbound, hfresh⟩, hsucc⟩, hstale⟩ := hs
  rw [h.lmb_eq] at hsucc hstale
  have hstep : ∀ {rgn' ret}, lmb.reserved.addRegion base size = some (rgn', ret) →
      Tidy rgn' → (∀ a, Covers rgn'.spans a ↔ a ∈ (⟨base, size⟩ : LmbProperty).span ∨
        LmbCall.outstanding t.calls a = true) →
      ∃ lmb', (t.step (.reserve base size)).Inv lmb' := by
    intro rgn' ret hadd htidy hcov
    refine ⟨{ lmb with reserved := rgn' }, ?_, .inr ⟨by simp [step], htidy, fun a => ?_⟩⟩
    · simp [step, h.lmb_eq, LmbCall.run, lmbReserve, hadd]
    · rw [hcov]
      simp only [step, LmbCall.outstanding, foldl_append, foldl_cons, foldl_nil,
        LmbCall.reservedAfter, Bool.or_eq_true, decide_eq_true_iff]
      exact or_comm
  rcases h.state with ⟨hnil, hcnt, hzero⟩ | ⟨-, htidy, hcov⟩
  · -- the dummy region is replaced
    have hadd : lmb.reserved.addRegion base size = some (lmb.reserved.set 0 ⟨base, size⟩, 0) := by
      rw [addRegion, if_pos ⟨hcnt, by rw [hzero]⟩]
    have hregion : (lmb.reserved.set 0 ⟨base, size⟩).region 0 = ⟨base, size⟩ := by
      rw [set_region, if_pos rfl]
    have hone : (lmb.reserved.set 0 ⟨base, size⟩).cnt = 1 := hcnt
    obtain ⟨htidy, hcov⟩ := tidy_single hone hregion hpos hbound
    refine hstep hadd htidy fun a => ?_
    rw [hcov, hnil]
    simp [LmbCall.outstanding]
  · rcases Nat.eq_zero_or_pos lmb.reserved.cnt with hcnt | hcnt
    · obtain ⟨hadj, hor⟩ := hstale lmb rfl hcnt
      -- the new region is below the stale entry, or is that entry again
      obtain ⟨rgn', ret, hadd, hcnt', hzero⟩ := addRegion_emptied hcnt hadj base size
      rw [ite_eq_left_iff.mpr hor.resolve_left] at hzero
      obtain ⟨htidy', hcov'⟩ := tidy_single hcnt' hzero hpos hbound
      refine hstep hadd htidy' fun a => ?_
      rw [hcov', ← hcov]
      simp [spans, hcnt, Covers]
    · have hfits : Fits lmb.reserved base size := by
        refine ⟨hpos, hbound.le, fun a ha => ?_⟩
        rw [hcov, hfresh a ha]
        simp
      obtain ⟨rgn', ret, hadd, hadded⟩ := htidy.addRegion_spec hcnt hfits hbound
      have hret : 0 ≤ ret :=
        hsucc lmb rfl ({ lmb with reserved := rgn' }, ret) (by simp [LmbCall.run, lmbReserve, hadd])
      obtain ⟨htidy', hadded⟩ := hadded hret
      refine hstep hadd htidy' fun a => ?_
      rw [hadded.covers, hcov]

/-- `lmb_free` keeps the invariant. -/
theorem Inv.free (h : t.Inv lmb) (hs : t.Safe (.free base size)) :
    ∃ lmb', (t.step (.free base size)).Inv lmb' := by
  obtain ⟨⟨⟨hpos, hbound, hlive⟩, hsucc⟩, -⟩ := hs
  rw [h.lmb_eq] at hsucc
  rcases h.state with ⟨hnil, -, -⟩ | ⟨-, htidy, hcov⟩
  · -- nothing is outstanding yet
    have hfirst := hlive base.toNat (base_mem_span hpos)
    rw [hnil] at hfirst
    exact absurd hfirst (by simp [LmbCall.outstanding])
  · obtain ⟨rgn', ret, hfree, hfreed⟩ := htidy.free_spec hpos hbound
    have hret : 0 ≤ ret := hsucc lmb rfl ({ lmb with reserved := rgn' }, ret)
      (by simp [LmbCall.run, lmbFree, hfree])
    refine ⟨{ lmb with reserved := rgn' }, ?_,
      .inr ⟨by simp [step], Tidy.of_freed htidy hfreed, fun a => ?_⟩⟩
    · simp [step, h.lmb_eq, LmbCall.run, lmbFree, hfree]
    · rw [hfreed.covers hret, hcov]
      simp only [step, LmbCall.outstanding, foldl_append, foldl_cons, foldl_nil,
        LmbCall.reservedAfter, Bool.and_eq_true, Bool.not_eq_true', decide_eq_false_iff_not]
      rfl

/-- After at least one call the invariant says that `lmb_is_reserved` is exact. -/
theorem Inv.exact (h : t.Inv lmb) (hne : t.calls ≠ []) : t.Exact := by
  refine ⟨lmb, h.lmb_eq, fun addr => ?_⟩
  rcases h.state with ⟨hnil, -⟩ | ⟨-, htidy, hcov⟩
  · exact absurd hnil hne
  · rw [Bool.eq_iff_iff, htidy.isReserved_iff, hcov]

theorem calls_foldl (t : LmbTrace) (calls : List LmbCall) :
    (calls.foldl step t).calls = t.calls ++ calls := by
  induction calls generalizing t with
  | nil => simp
  | cons call calls ih => simp [ih, step]

end LmbTrace

/-! ## The reserved set -/

/-- In every run of permitted, successful calls from `lmb_init` in which a range reserved while no
region is left lies below the stale first entry or is that entry again, and the first two stale
entries do not touch, `lmb_is_reserved` is exact after every call. -/
theorem lmbIsReserved_exact (lmb : Lmb) {calls : List LmbCall}
    (hg : Guarded LmbTrace.step LmbTrace.Safe (.init lmb) calls) :
    ∀ pre, pre <+: calls → pre ≠ [] → (pre.foldl LmbTrace.step (.init lmb)).Exact := by
  rintro pre ⟨post, rfl⟩ hne
  have hstep : ∀ (t : LmbTrace) (call : LmbCall), (∃ lmb', t.Inv lmb') → t.Safe call →
      ∃ lmb', (t.step call).Inv lmb' := by
    rintro t call ⟨lmb', h⟩ hs
    cases call with
    | reserve base size => exact h.reserve hs
    | free base size => exact h.free hs
  obtain ⟨lmb', h⟩ := hg.of_append.invariant hstep ⟨lmbInit lmb, rfl, .inl ⟨rfl, rfl, rfl⟩⟩
  refine h.exact ?_
  rw [LmbTrace.calls_foldl]
  simpa [LmbTrace.init] using hne

/-- Tables in zeroed memory. -/
def zeroedLmb : Lmb := ⟨⟨0, fun _ => ⟨0, 0⟩, by decide⟩, ⟨0, fun _ => ⟨0, 0⟩, by decide⟩⟩

/-- Two neighbours are reserved and a hole is freed in the middle of what they make up. -/
theorem lmbIsReserved_exact_hole :
    ([.reserve 0x2000 0x1000, .reserve 0x1000 0x1000, .free 0x1800 0x1000].foldl LmbTrace.step
      (.init zeroedLmb)).Exact := by
  refine lmbIsReserved_exact zeroedLmb ?_ _ (prefix_refl _) (by simp)
  refine ⟨⟨⟨⟨by decide, by decide, fun a ha => ?_⟩, by decide +kernel⟩,
    by decide +kernel⟩, ⟨⟨⟨by decide, by decide, fun a ha => ?_⟩, by decide +kernel⟩,
    by decide +kernel⟩, ⟨⟨⟨by decide, by decide, fun a ha => ?_⟩, by decide +kernel⟩,
    by decide +kernel⟩, trivial⟩
  all_goals
    simp only [Span.mem_def] at ha
    simp [LmbTrace.init, LmbTrace.step, LmbCall.outstanding, LmbCall.reservedAfter] at ha ⊢
  · omega
  · omega

/-- Nothing is reserved after `lmb_init`, but every address is said to be. And when a range is
reserved behind the one that was freed last, it is the freed one that is reserved again. -/
theorem not_exact_init_and_stale : ¬ (LmbTrace.init zeroedLmb).Exact ∧
    Guarded LmbTrace.step LmbTrace.Lawful (.init zeroedLmb)
      [.reserve 0x1000 0x1000, .free 0x1000 0x1000, .reserve 0x3000 0x1000] ∧
    ¬ ([.reserve 0x1000 0x1000, .free 0x1000 0x1000, .reserve 0x3000 0x1000].foldl LmbTrace.step
      (.init zeroedLmb)).Exact := by
  refine ⟨?_, ⟨⟨⟨by decide, by decide, fun a ha => ?_⟩, by decide +kernel⟩,
    ⟨⟨by decide, by decide, fun a ha => ?_⟩, by decide +kernel⟩,
    ⟨⟨by decide, by decide, fun a ha => ?_⟩, by decide +kernel⟩, trivial⟩, ?_⟩
  · rintro ⟨lmb, hlmb, hexact⟩
    cases hlmb
    exact absurd (hexact 0) (by decide +kernel)
  · rfl
  · simp only [Span.mem_def] at ha
    simpa [LmbTrace.init, LmbTrace.step, LmbCall.outstanding, LmbCall.reservedAfter] using ha
  · simp [LmbTrace.init, LmbTrace.step, LmbCall.outstanding, LmbCall.reservedAfter]
  · rintro ⟨lmb, hlmb, hexact⟩
    cases hlmb
    exact absurd (hexact 0x3000) (by decide +kernel)

end UBoot.Memory
