import UBoot.Memory.LmbHighest
import UBoot.Memory.LmbRuns

/-!
# The reserved table stays sorted

Runs of all calls of the interface from `lmb_init`. The reserved regions stay in order and disjoint
unless

* a range is added to the table that `lmb_free` has emptied, and the entries it left there are
  adjacent,
* an allocation, whose size is only rounded up to the alignment after the search for a free range,
  reaches into the next reserved region, or
* a range that ends with the address space is added beside a region at address 0, or the other way
  round, or is freed while there are other regions.
-/

namespace UBoot.Memory

open UBoot.Common LmbRegion List LmbProperty Within

/-- The first address is not behind the last one, as `lmb_is_reserved` computes it. A region that
runs over the end of the address space has no address. -/
def LmbProperty.Nonempty (p : LmbProperty) : Prop := p.size ≠ 0 ∧ p.base ≤ p.last

/-- The regions have increasing bases, are disjoint and not empty, apart from the dummy region of
`lmb_init`. -/
structure SortedTable (rgn : LmbRegion) : Prop where
  increasing : ∀ i j, i < j → j < rgn.cnt → (rgn.region i).base < (rgn.region j).base
  disjoint : ∀ i j, i < j → j < rgn.cnt → ∀ a ∈ (rgn.region i).span, a ∉ (rgn.region j).span
  nonempty : (rgn.cnt = 1 ∧ rgn.region 0 = ⟨0, 0⟩) ∨ ∀ i < rgn.cnt, (rgn.region i).Nonempty

/-! ### Runs -/

/-- The range has no neighbours in a table that it would be joined with wrongly: in an emptied table
the first two stale entries are not adjacent, and in others the joined region does not run around
the end of the address space. -/
def JoinsWell (rgn : LmbRegion) (base size : BitVec 64) : Prop :=
  (rgn.cnt = 0 → rgn.regionsAdjacent 0 1 = 0) ∧
    (0 < rgn.cnt → (rgn.region 0).size ≠ 0 → ¬ RunsAround rgn base size)

theorem JoinsWell.not_runsAround {rgn : LmbRegion} {base size : BitVec 64}
    (hj : JoinsWell rgn base size)
    (h : Within rgn) (hcnt : 0 < rgn.cnt) : ¬ RunsAround rgn base size :=
  hj.2 hcnt fun h0 => (h.size_pos hcnt).ne' (congrArg BitVec.toNat h0)

namespace LmbOp

/-- The tables after a call, unless it writes outside of them. -/
def run (lmb : Lmb) : LmbOp → Option Lmb
  | add base size => (lmbAdd lmb base size).map Prod.fst
  | reserve base size => (lmbReserve lmb base size).map Prod.fst
  | free base size => (lmbFree lmb base size).map Prod.fst
  | alloc size align maxAddr =>
    match lmbAllocBase lmb size align maxAddr with
    | .ret _ lmb' => some lmb'
    | _ => none

/-- The next call. -/
def step (t : Option Lmb) (op : LmbOp) : Option Lmb := t.bind op.run

/-- The calls considered: a range that is reserved is disjoint from the reserved set, and one that
is freed lies in it; both are not empty and end with the address space at the latest. An allocation
asks for something that is not larger than the limit, with a power of two as alignment, while
neither memory nor a reserved region reaches the end of the address space. -/
def Lawful (lmb : Lmb) : LmbOp → Prop
  | add _ _ => True
  | reserve base size => Fits lmb.reserved base size
  | free base size => 0 < size.toNat ∧ base.toNat + size.toNat ≤ 2 ^ 64 ∧
      ∀ a ∈ (⟨base, size⟩ : LmbProperty).span, Covers lmb.reserved.spans a
  | alloc size align maxAddr => 0 < size.toNat ∧ (∃ k, align.toNat = 2 ^ k) ∧
      (maxAddr = allocAnywhere ∨ size.toNat ≤ maxAddr.toNat) ∧
      (∀ i < lmb.memory.cnt, (lmb.memory.region i).span.hi < 2 ^ 64) ∧
      ∀ j < lmb.reserved.cnt, (lmb.reserved.region j).span.hi < 2 ^ 64

end LmbOp

/-- The dummy region, or regions in order with gaps. In an emptied table the first stale entry is
one that was there. -/
def Settled (rgn : LmbRegion) : Prop :=
  (rgn.cnt = 1 ∧ rgn.region 0 = ⟨0, 0⟩) ∨
    Within rgn ∧ (rgn.cnt = 0 → 0 < (rgn.region 0).size.toNat ∧ (rgn.region 0).span.hi ≤ 2 ^ 64)

section Tables

variable {rgn rgn' : LmbRegion} {base size : BitVec 64} {ret : ℤ} {p : LmbProperty} {i : ℕ}

theorem nonempty_iff : p.Nonempty ↔ 0 < p.size.toNat ∧ p.span.hi ≤ 2 ^ 64 := by
  rw [LmbProperty.Nonempty, last, span_hi]
  bv_omega

theorem cnt_pos_of_covers {a : ℕ} (h : Covers rgn.spans a) : 0 < rgn.cnt := by
  obtain ⟨r, hr, -⟩ := h
  obtain ⟨i, hi, -⟩ := mem_spans.mp hr
  omega

theorem not_covers_dummy (hcnt : rgn.cnt = 1) (hzero : rgn.region 0 = ⟨0, 0⟩) (a : ℕ) :
    ¬ Covers rgn.spans a := by
  rintro ⟨r, hr, -, hlt⟩
  obtain ⟨i, hi, rfl⟩ := mem_spans.mp hr
  rw [show i = 0 by omega, hzero] at hlt
  exact absurd hlt (Nat.not_lt_zero a)

theorem settled_of_within (h : Within rgn) (hcnt : 0 < rgn.cnt) :
    Settled rgn := .inr ⟨h, fun h0 => by omega⟩

theorem Settled.sorted (h : Settled rgn) : SortedTable rgn := by
  rcases h with ⟨hcnt, hzero⟩ | ⟨hwithin, -⟩
  · exact ⟨fun i j hij hj => by omega, fun i j hij hj => by omega, .inl ⟨hcnt, hzero⟩⟩
  refine ⟨fun i j hij hj => ?_, fun i j hij hj a hi hj' => ?_,
    .inr fun i hi => nonempty_iff.mpr ⟨hwithin.size_pos hi, hwithin.end_le hi⟩⟩
  · have hgap := hwithin.gap hij hj
    exact BitVec.lt_def.mpr (by omega)
  · have hgap := hwithin.gap hij hj
    simp only [mem_span] at hi hj'
    omega

theorem addRegion_cnt_pos (hcnt : 0 < rgn.cnt) (h : rgn.addRegion base size = some (rgn', ret)) :
    0 < rgn'.cnt := by
  by_cases hd : rgn.cnt = 1 ∧ (rgn.region 0).size = 0
  · rw [addRegion, if_pos hd] at h
    cases h
    exact hcnt
  · cases addStep_of_addRegion hcnt hd h with
    | same | extend | full => exact hcnt
    | merge _ hlt _ hcnt' => omega
    | insert => exact Nat.succ_pos _

/-- Adding a disjoint range. -/
theorem Settled.addRegion (h : Settled rgn) (hf : Fits rgn base size)
    (hj : JoinsWell rgn base size) :
    ∃ rgn' ret, rgn.addRegion base size = some (rgn', ret) ∧ Settled rgn' := by
  -- a single region
  have hsingle : ∀ {rgn' p}, rgn'.cnt = 1 → rgn'.region 0 = p → 0 < p.size.toNat →
      p.span.hi ≤ 2 ^ 64 → Settled rgn' := fun hone hp hpos hbound =>
    settled_of_within (within_single hone hp hpos hbound).1 (by omega)
  rcases h with ⟨hcnt, hzero⟩ | ⟨hwithin, hstale⟩
  · refine ⟨rgn.set 0 ⟨base, size⟩, 0, if_pos ⟨hcnt, by rw [hzero]⟩,
      hsingle (p := ⟨base, size⟩) hcnt ?_ hf.pos hf.bound⟩
    rw [set_region, if_pos rfl]
  rcases Nat.eq_zero_or_pos rgn.cnt with hcnt | hcnt
  · -- the new region or the stale one is the only one
    obtain ⟨rgn', ret, hadd, hone, hzero⟩ := addRegion_emptied hcnt (hj.1 hcnt) base size
    refine ⟨rgn', ret, hadd, ?_⟩
    split at hzero
    · exact hsingle hone hzero hf.pos hf.bound
    · exact hsingle hone hzero (hstale hcnt).1 (hstale hcnt).2
  · obtain ⟨rgn', ret, hadd, hor⟩ := hwithin.addRegion_spec hcnt hf (hj.not_runsAround hwithin hcnt)
    refine ⟨rgn', ret, hadd, ?_⟩
    rcases Int.lt_or_le ret 0 with hneg | hret
    · rw [(addRegion_neg hadd hneg).1]
      exact settled_of_within hwithin hcnt
    · rcases hor hret with hadded | ⟨-, hone, hzero | ⟨hpos, hbound⟩⟩
      · exact settled_of_within hadded.within hadded.pos
      · exact .inl ⟨hone, hzero⟩
      · exact hsingle hone rfl hpos hbound

/-- Two spans of a sorted table do not share an address. -/
theorem SortedTable.not_mem (h : SortedTable rgn) {l₁ l₂ : List (Span ℕ)} {r q : Span ℕ}
    (hspans : rgn.spans = l₁ ++ r :: l₂) (hq : q ∈ l₁ ++ l₂) {a : ℕ} (har : a ∈ r) : a ∉ q := by
  have hpair : rgn.spans.Pairwise fun r q => ∀ a ∈ r, a ∉ q := by
    rw [spans, pairwise_map]
    exact pairwise_lt_range.imp_of_mem fun _ hj hlt => h.disjoint _ _ hlt (mem_range.mp hj)
  rw [hspans, pairwise_append] at hpair
  obtain ⟨-, hcons, hcross⟩ := hpair
  intro haq
  rcases mem_append.mp hq with hq | hq
  · exact hcross q hq r mem_cons_self a haq har
  · exact (pairwise_cons.mp hcons).1 q hq a har haq

section

variable (h : Within rgn) (hbound : base.toNat + size.toNat ≤ 2 ^ 64) (hpos : 0 < size.toNat)
  (hfree : ¬ Covers rgn.spans base.toNat) (hadd : rgn.addRegion base size = some (rgn', ret))

include h hbound hpos hfree hadd

end

/-- A table that is emptied keeps its first entry. -/
theorem free_emptied (hcnt : 0 < rgn.cnt) (h : rgn.free base size = some (rgn', ret))
    (h0 : rgn'.cnt = 0) : rgn'.region 0 = rgn.region 0 := by
  rw [free] at h
  dsimp only at h
  split at h
  case h_1 =>
    cases h
    omega
  case h_2 i hfind =>
    have hi : i < rgn.cnt := mem_range.mp (mem_of_find?_eq_some hfind)
    split at h
    · obtain ⟨rgn₁, hrem, heq⟩ := Option.map_eq_some_iff.mp h
      cases heq
      rw [removeRegion, if_neg (by omega)] at hrem
      cases hrem
      have hone : rgn.cnt - 1 = 0 := h0
      obtain rfl : i = 0 := by omega
      show copyDown (rgn.cnt - 1 - 0) 0 rgn.region 0 = rgn.region 0
      rw [hone]
      rfl
    split at h
    · cases h
      exact absurd h0 hcnt.ne'
    split at h
    · cases h
      exact absurd h0 hcnt.ne'
    · have hpos := addRegion_cnt_pos (show 0 < (rgn.set i _).cnt from hcnt) h
      omega

section

variable (h : Within rgn) (hpos : 0 < size.toNat) (hend : base.toNat + size.toNat = 2 ^ 64)
  (hc : ∀ a ∈ (⟨base, size⟩ : LmbProperty).span, Covers rgn.spans a)

include h hpos hend hc

/-- A range that ends with the address space lies in the last region. -/
theorem last_of_covers : 0 < rgn.cnt ∧ (rgn.region (rgn.cnt - 1)).base.toNat ≤ base.toNat ∧
    (rgn.region (rgn.cnt - 1)).base.toNat + (rgn.region (rgn.cnt - 1)).size.toNat = 2 ^ 64 := by
  obtain ⟨r, hr, hlo, hhi⟩ := h.separated.exists_span (by simp; omega) hc
  obtain ⟨i, hi, rfl⟩ := mem_spans.mp hr
  simp only [span_lo, span_hi] at hlo hhi
  have hle := h.end_le hi
  obtain rfl := h.eq_last hi (by omega)
  exact ⟨by omega, hlo, by omega⟩

/-- The search for a range that ends with the address space stops at the first entry. -/
theorem free_top : rgn.free base size =
    if (rgn.region 0).base = base ∧ (rgn.region 0).base + (rgn.region 0).size = 0 then
      (rgn.removeRegion 0).map fun rgn => (rgn, 0)
    else if (rgn.region 0).base = base then some (rgn.set 0 ⟨0, (rgn.region 0).size - size⟩, 0)
    else if (rgn.region 0).base + (rgn.region 0).size = 0 then
      some (rgn.set 0 ⟨(rgn.region 0).base, (rgn.region 0).size - size⟩, 0)
    else (rgn.set 0 ⟨(rgn.region 0).base, base - (rgn.region 0).base⟩).addRegion 0
      ((rgn.region 0).base + (rgn.region 0).size) := by
  obtain ⟨hcnt, hlo, -⟩ := last_of_covers h hpos hend hc
  have hfin : base + size = 0 := by bv_omega
  have hle : (rgn.region 0).base ≤ base :=
    BitVec.le_trans (h.ordered 0 (rgn.cnt - 1) (Nat.zero_le _) (by omega)) (BitVec.le_def.mpr hlo)
  have hfind : (range rgn.cnt).find? (fun i => (rgn.region i).base ≤ base &&
      base + size ≤ (rgn.region i).base + (rgn.region i).size) = some 0 := by
    obtain ⟨n, hn⟩ := Nat.exists_eq_add_of_lt hcnt
    rw [hn, Nat.zero_add, range_succ_eq_map, find?_cons_of_pos]
    rw [hfin, Bool.and_eq_true, decide_eq_true_iff, decide_eq_true_iff]
    exact ⟨hle, BitVec.le_def.mpr (Nat.zero_le _)⟩
  have hsub : ∀ x : BitVec 64, x - 0 = x := fun x => by simp
  rw [free]
  dsimp only
  rw [hfind]
  simp only [hfin, hsub]

end

theorem Settled.free (h : Settled rgn) (hpos : 0 < size.toNat)
    (hbound : base.toNat + size.toNat ≤ 2 ^ 64)
    (hc : ∀ a ∈ (⟨base, size⟩ : LmbProperty).span, Covers rgn.spans a)
    (hone : base.toNat + size.toNat = 2 ^ 64 → rgn.cnt = 1) :
    ∃ rgn' ret, rgn.free base size = some (rgn', ret) ∧ Settled rgn' := by
  have hcov := hc _ (base_mem_span hpos)
  have hcnt := cnt_pos_of_covers hcov
  rcases h with ⟨hcnt, hzero⟩ | ⟨hwithin, -⟩
  · exact absurd hcov (not_covers_dummy hcnt hzero _)
  -- an emptied table keeps its first entry
  have hemptied : ∀ {rgn' ret}, rgn.free base size = some (rgn', ret) → Within rgn' → Settled rgn' := by
    intro rgn' ret hfree hwithin'
    refine .inr ⟨hwithin', fun h0 => ?_⟩
    rw [free_emptied hcnt hfree h0]
    exact ⟨hwithin.size_pos hcnt, hwithin.end_le hcnt⟩
  rcases Nat.lt_or_eq_of_le hbound with hlt | hend
  · obtain ⟨rgn', ret, hfree, hfreed⟩ := hwithin.free_spec hpos hlt
    exact ⟨rgn', ret, hfree, hemptied hfree hfreed.within⟩
  · have hcnt1 := hone hend
    obtain ⟨-, hlo, hlast⟩ := last_of_covers hwithin hpos hend hc
    rw [hcnt1, Nat.sub_self] at hlo hlast
    have hfin : (rgn.region 0).base + (rgn.region 0).size = 0 := by bv_omega
    have htop := free_top hwithin hpos hend hc
    by_cases hbase : (rgn.region 0).base = base
    · rw [if_pos ⟨hbase, hfin⟩] at htop
      obtain ⟨rgn', hrem, -, hspans⟩ := removeRegion_spec hcnt
      rw [hrem] at htop
      exact ⟨rgn', 0, htop, hemptied htop (hwithin.remove hcnt hspans).1⟩
    · rw [if_neg fun h => hbase h.1, if_neg hbase, if_pos hfin] at htop
      refine ⟨_, _, htop, hemptied htop (hwithin.of_replace hcnt.le (Nat.le_succ 0)
        (spans_set_split hcnt _) ?_ ?_ (fun j hj => absurd hj (Nat.not_lt_zero j)) fun j
        hj hj' => by omega)⟩
      · bv_omega
      · bv_omega

end Tables

/-! ### One call -/

section Calls

variable {lmb lmb' : Lmb} {size align maxAddr : BitVec 64}

/-- Where the highest address that fits leaves room for the size rounded up, the larger range fits
into the table. -/
theorem HighestFit.fits {a : BitVec 64} (ha : HighestFit lmb size align maxAddr a.toNat)
    (hl : (LmbOp.alloc size align maxAddr).Lawful lmb) (hroom : ∀ j < lmb.reserved.cnt,
      a < (lmb.reserved.region j).base →
        a.toNat + (alignUp size align).toNat ≤ (lmb.reserved.region j).base.toNat) :
    Fits lmb.reserved a (alignUp size align) := by
  obtain ⟨hsize, ⟨k, hk⟩, -, hmem, -⟩ := hl
  obtain ⟨i, hi, hfit, -⟩ := ha
  obtain ⟨hle, hbound⟩ := add_alignUp_le hk hfit.pos hfit.aligned (hfit.inside.trans (hmem i hi).le)
  refine ⟨hsize.trans_le hle, hbound, ?_⟩
  rintro x hx ⟨r, hr, hxr⟩
  obtain ⟨j, hj, rfl⟩ := mem_spans.mp hr
  have hfree := hfit.free j hj
  have hor := hroom j hj
  simp only [mem_span, span_lo, span_hi, BitVec.lt_def] at hx hxr hfree hor
  omega

namespace LmbOp

end LmbOp

end Calls

/-! ### Whole runs -/

end UBoot.Memory
