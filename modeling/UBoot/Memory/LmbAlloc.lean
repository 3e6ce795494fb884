import UBoot.Memory.LmbFailure
import UBoot.Memory.LmbSearch

/-!
# Safety of allocation

What `__lmb_alloc_base` may hand out: an aligned range inside one memory region, below the limit,
that was free and is reserved afterwards. For the address where the search ends this depends on the
limit, which must not be below the size, and on the entry of the reserved table that takes the
range, which must not run over the end of the address space. A table that is full refuses the range,
and zero is returned.
-/

namespace UBoot.Memory

open UBoot.Common LmbRegion LmbProperty List

/-- Reserved regions, in any order, which may overlap: not empty and not wrapping around; or just
the dummy region of `lmb_init`. -/
structure ValidReserved (rgn : LmbRegion) : Prop where
  pos : (rgn.cnt = 1 ∧ rgn.region 0 = ⟨0, 0⟩) ∨ ∀ i < rgn.cnt, 0 < (rgn.region i).size.toNat
  bound : ∀ i < rgn.cnt, (rgn.region i).span.hi < 2 ^ 64

/-- The allocated range is as it should be. -/
structure Allocated (lmb : Lmb) (size align maxAddr a : BitVec 64) (lmb' : Lmb) : Prop where
  aligned : align.toNat ∣ a.toNat
  inside : ∃ i < lmb.memory.cnt, (lmb.memory.region i).span.lo ≤ a.toNat ∧
    a.toNat + size.toNat ≤ (lmb.memory.region i).span.hi
  below : maxAddr ≠ allocAnywhere → a.toNat + size.toNat ≤ maxAddr.toNat
  fresh : ∀ x ∈ (⟨a, size⟩ : LmbProperty).span, ¬ Covers lmb.reserved.spans x
  reserved : ∀ addr : BitVec 64, addr.toNat ∈ (⟨a, size⟩ : LmbProperty).span →
    lmbIsReserved lmb' addr = true

/-- The function returns zero or an address that is as it should be. -/
def Alloc.Safe (lmb : Lmb) (size align maxAddr : BitVec 64) : Alloc → Prop
  | .ret a lmb' => a ≠ 0 → Allocated lmb size align maxAddr a lmb'
  | _ => False

/-! ## What the reserved table does with the range -/

/-- The last address of a region, as `lmb_is_reserved` computes it. -/
def LmbProperty.last (p : LmbProperty) : BitVec 64 := p.base + p.size - 1

/-- Region `i`, which touches the range, put together with it, and with the next region if it
touches the two then. -/
def joined (rgn : LmbRegion) (base size : BitVec 64) (i : ℕ) : LmbProperty :=
  let p := rgn.region i
  let q := rgn.region (i + 1)
  let p : LmbProperty := ⟨if p.base = base + size then base else p.base, p.size + size⟩
  if i + 1 < rgn.cnt ∧ addrsAdjacent p.base p.size q.base q.size ≠ 0 then ⟨p.base, p.size + q.size⟩ else p

/-- `lmb_add_region` fails: the table is full, and no region is the range or touches it. -/
def Refuses (rgn : LmbRegion) (base size : BitVec 64) : Prop :=
  rgn.cnt = maxLmbRegions ∧ ∀ i < rgn.cnt, rgn.stopsAt base size i = false

/-- When `total` bytes from `a` on are added, the first `size` of them are reserved. If no region is
left, the first two stale entries are not adjacent, and the first one lies above or happens to reach
as far. If a region touches the range, the first one that does and what is put together with it
reach as far. -/
structure Takes (rgn : LmbRegion) (a total size : BitVec 64) : Prop where
  emptied : rgn.cnt = 0 → rgn.regionsAdjacent 0 1 = 0 ∧
    (a < (rgn.region 0).base ∨ a.toNat + size.toNat ≤ (rgn.region 0).last.toNat + 1)
  joins : ∀ i < rgn.cnt, (rgn.region i).size ≠ 0 → rgn.stopsAt a total i = true →
    (∀ j < i, rgn.stopsAt a total j = false) → a.toNat + size.toNat ≤ (joined rgn a total i).last.toNat + 1

/-- No reserved region overlaps the `size` bytes from `a` on. -/
def IsFree (rgn : LmbRegion) (a size : ℕ) : Prop :=
  ∀ j < rgn.cnt, a + size ≤ (rgn.region j).span.lo ∨ (rgn.region j).span.hi ≤ a

theorem SeemsFree.isFree {rgn : LmbRegion} {a size : ℕ} (h : SeemsFree rgn a size)
    (hres : ∀ j < rgn.cnt, (rgn.region j).span.hi < 2 ^ 64) (hend : a + size < 2 ^ 64) :
    IsFree rgn a size := by
  intro j hj
  have hlt := hres j hj
  have hor := h j hj
  omega

/-- The `size` bytes from `a` on are reserved. -/
def Reserves (memory rgn : LmbRegion) (a size : BitVec 64) : Prop :=
  ∀ addr : BitVec 64, addr.toNat ∈ (⟨a, size⟩ : LmbProperty).span → lmbIsReserved ⟨memory, rgn⟩ addr = true

section Table

variable {rgn rgn' : LmbRegion} {a total size : BitVec 64} {q : LmbProperty} {i : ℕ}

theorem toNat_last (q : LmbProperty) : q.last.toNat = (q.span.hi + 2 ^ 64 - 1) % 2 ^ 64 := by
  rw [last, span_hi]
  bv_omega

theorem lmbIsReserved_iff (memory : LmbRegion) (addr : BitVec 64) :
    lmbIsReserved ⟨memory, rgn⟩ addr = true ↔ ∃ r ∈ rgn.spans, r.lo ≤ addr.toNat ∧
    addr.toNat ≤ (r.hi + 2 ^ 64 - 1) % 2 ^ 64 := by
  simp only [lmbIsReserved, any_eq_true, mem_range, Bool.and_eq_true, decide_eq_true_iff, mem_spans]
  constructor
  · rintro ⟨i, hi, hlo, hhi⟩
    refine ⟨_, ⟨i, hi, rfl⟩, BitVec.le_def.mp hlo, ?_⟩
    rw [← toNat_last]
    exact BitVec.le_def.mp hhi
  · rintro ⟨_, ⟨i, hi, rfl⟩, hlo, hhi⟩
    rw [← toNat_last] at hhi
    exact ⟨i, hi, BitVec.le_def.mpr hlo, BitVec.le_def.mpr hhi⟩

/-- When all entries but `q` are apart from the range, the range is reserved if `q` reaches as
far. -/
theorem reserved_iff (memory : LmbRegion) (hsize : 0 < size.toNat)
    (hend : a.toNat + size.toNat < 2 ^ 64) (hq : q.span ∈ rgn'.spans) (hlo : q.base.toNat ≤ a.toNat)
    (hold : ∀ r ∈ rgn'.spans, r = q.span ∨
      r.lo < r.hi ∧ r.hi < 2 ^ 64 ∧ (a.toNat + size.toNat ≤ r.lo ∨ r.hi ≤ a.toNat)) :
    Reserves memory rgn' a size ↔ a.toNat + size.toNat ≤ q.last.toNat + 1 := by
  simp only [Reserves, lmbIsReserved_iff, mem_span]
  constructor
  · intro h
    -- the last address of the range
    have hlast : (a + size - 1).toNat = a.toNat + size.toNat - 1 := by bv_omega
    obtain ⟨r, hr, hrlo, hrhi⟩ := h (a + size - 1) (by omega)
    rcases hold r hr with rfl | hapart
    · rw [toNat_last]
      omega
    · omega
  · intro h addr haddr
    rw [toNat_last] at h
    exact ⟨q.span, hq, by rw [span_lo]; omega, by omega⟩

/-- The entry extended by the range is the joined one, unless the next one is merged with it. -/
theorem joined_of_extends {p : LmbProperty} (he : Extends rgn a total i p) : joined rgn a total i =
    if i + 1 < rgn.cnt ∧ addrsAdjacent p.base p.size (rgn.region (i + 1)).base
    (rgn.region (i + 1)).size ≠ 0
    then ⟨p.base, p.size + (rgn.region (i + 1)).size⟩ else p := by
  rcases he.entry with ⟨heq, rfl⟩ | ⟨hne, -, rfl⟩
  · simp only [joined, if_pos heq]
  · simp only [joined, if_neg hne]

section

variable (memory : LmbRegion) (hr : ValidReserved rgn) (hfree : IsFree rgn a.toNat size.toNat)
  (hsize : 0 < size.toNat) (hend : a.toNat + size.toNat < 2 ^ 64) (htotal : a.toNat + total.toNat ≤ 2 ^ 64)
  (hle : size.toNat ≤ total.toNat)

include hr hfree hsize hend htotal hle

/-- A table that has regions other than the dummy. -/
theorem takes_iff_of_pos (hcnt : 0 < rgn.cnt) (hpos : ∀ i < rgn.cnt, 0 < (rgn.region i).size.toNat)
    (hno : ¬ Refuses rgn a total) :
    (∃ rgn' ret, rgn.addRegion a total = some (rgn', ret) ∧ Reserves memory rgn' a size) ↔
      Takes rgn a total size := by
  have hne : ∀ i < rgn.cnt, (rgn.region i).size ≠ 0 :=
    fun i hi h0 => (hpos i hi).ne' (congrArg BitVec.toNat h0)
  have hold : ∀ r ∈ rgn.spans, r.lo < r.hi ∧ r.hi < 2 ^ 64 ∧
    (a.toNat + size.toNat ≤ r.lo ∨ r.hi ≤ a.toNat) := by
    intro r hrs
    obtain ⟨j, hj, rfl⟩ := mem_spans.mp hrs
    exact ⟨Nat.lt_add_of_pos_right (hpos j hj), hr.bound j hj, hfree j hj⟩
  obtain ⟨rgn', ret, hadd, hstep⟩ := addRegion_step hcnt (fun hd => hne 0 hcnt hd.2) a total
  have hres : (∃ rgn' ret, rgn.addRegion a total = some (rgn', ret) ∧ Reserves memory rgn' a size) ↔
      Reserves memory rgn' a size := by simp [hadd]
  rw [hres]
  -- an entry that is extended, alone or with the next one
  have hjoin : ∀ {i p}, Extends rgn a total i p → (joined rgn a total i).span ∈ rgn'.spans →
      (∀ r ∈ rgn'.spans, r = (joined rgn a total i).span ∨ r ∈ rgn.spans) →
      (Reserves memory rgn' a size ↔ Takes rgn a total size) := by
    intro i p he hmem hsub
    have hlo : (joined rgn a total i).base.toNat ≤ a.toNat := by
      have hb : (joined rgn a total i).base = p.base := by
        rw [joined_of_extends he]
        split <;> rfl
      rw [hb]
      rcases he.entry with ⟨-, rfl⟩ | ⟨-, heq, rfl⟩
      · exact le_rfl
      · have hlt := hr.bound i he.lt
        rw [span_hi] at hlt
        rw [heq, BitVec.toNat_add_of_lt hlt]
        exact Nat.le_add_right _ _
    have hstop := he.stopsAt
    rw [reserved_iff memory hsize hend hmem hlo fun r hrs => (hsub r hrs).imp_right (hold r)]
    refine ⟨fun h => ⟨fun h0 => by omega, fun j hj _ hj' hfirst => ?_⟩, fun h => h.joins i he.lt
      (hne i he.lt) hstop he.first⟩
    -- the first region that touches the range is this one
    rcases Nat.lt_trichotomy i j with hij | rfl | hij
    · exact absurd hstop (by rw [hfirst i hij]; decide)
    · exact h
    · exact absurd hj' (by rw [he.first j hij]; decide)
  have hother : ∀ {i k : ℕ} {q r : Span ℕ}, r ∈ rgn.spans.take i ++ q :: rgn.spans.drop k → r = q ∨
    r ∈ rgn.spans := by
    intro i k q r hrs
    rcases mem_append.mp hrs with hrs | hrs
    · exact .inr (mem_of_mem_take hrs)
    · exact (mem_cons.mp hrs).imp_right mem_of_mem_drop
  cases hstep with
  | same hi hsame =>
    have hor := hfree _ hi
    rw [hsame, span_lo, span_hi] at hor
    dsimp only at hor
    omega
  | @extend i p he hnext =>
    have heq : joined rgn a total i = p := by
      rw [joined_of_extends he, if_neg fun h => h.2 (hnext h.1)]
    refine hjoin he ?_ fun r => ?_
    all_goals rw [heq, spans_set_split he.lt]
    · simp
    · exact hother
  | @merge i p rgn' he hlt hnext hcnt hspans =>
    have heq : joined rgn a total i = ⟨p.base, p.size + (rgn.region (i + 1)).size⟩ := by
      rw [joined_of_extends he, if_pos ⟨hlt, hnext⟩]
    refine hjoin he ?_ fun r => ?_
    all_goals rw [heq, hspans]
    · simp
    · exact hother
  | insert hroom hstop =>
    obtain ⟨⟨k, hk, hnew⟩, hregions⟩ := insertRegion_region hcnt a total hroom
    have hiff := reserved_iff (q := ⟨a, total⟩) memory hsize hend
      (mem_spans.mpr ⟨k, hk, by rw [hnew]⟩) le_rfl ?_
    · refine iff_of_true (hiff.mpr ?_) ⟨fun h0 => by omega, fun i hi _ hi' => ?_⟩
      · rw [toNat_last, span_hi]
        dsimp only
        omega
      · rw [hstop i hi] at hi'
        cases hi'
    · intro r hrs
      obtain ⟨j, hj, rfl⟩ := mem_spans.mp hrs
      rcases hregions j hj with hj | ⟨j', hj', heq⟩
      · exact .inl (by rw [hj])
      · exact .inr (by rw [heq]; exact hold _ (span_mem_spans hj'))
  | full hfull => exact absurd (addRegion_neg hadd (by decide)).2 hno

/-- The range is reserved after it was added if and only if the table takes it. -/
theorem takes_iff (hno : ¬ Refuses rgn a total) :
    (∃ rgn' ret, rgn.addRegion a total = some (rgn', ret) ∧ Reserves memory rgn' a size) ↔
      Takes rgn a total size := by
  -- the range is the only entry, or the stale one is
  have hsingle : ∀ {rgn' : LmbRegion} {q : LmbProperty}, rgn'.cnt = 1 → rgn'.region 0 = q →
      q.base.toNat ≤ a.toNat → (Reserves memory rgn' a size ↔ a.toNat + size.toNat ≤
      q.last.toNat + 1) := by
    intro rgn' q hone hzero hlo
    have hspans : rgn'.spans = [q.span] := by simp [spans, hone, hzero]
    refine reserved_iff memory hsize hend (by simp [hspans]) hlo fun r hrs => .inl ?_
    rw [hspans] at hrs
    exact mem_singleton.mp hrs
  have hnew : a.toNat + size.toNat ≤ (⟨a, total⟩ : LmbProperty).last.toNat + 1 := by
    rw [toNat_last, span_hi]
    dsimp only
    omega
  rcases Nat.eq_zero_or_pos rgn.cnt with hcnt | hcnt
  · by_cases hadj : rgn.regionsAdjacent 0 1 = 0
    · obtain ⟨rgn', ret, hadd, hone, hzero⟩ := addRegion_emptied hcnt hadj a total
      have htakes : Takes rgn a total size ↔
          a < (rgn.region 0).base ∨ a.toNat + size.toNat ≤ (rgn.region 0).last.toNat + 1 :=
        ⟨fun h => (h.emptied hcnt).2, fun h => ⟨fun _ => ⟨hadj, h⟩, fun i hi => by omega⟩⟩
      simp only [hadd, Option.some.injEq, Prod.mk.injEq, htakes]
      by_cases hlt : a < (rgn.region 0).base
      · rw [if_pos hlt] at hzero
        exact iff_of_true ⟨rgn', ret, ⟨rfl, rfl⟩, (hsingle hone hzero le_rfl).mpr hnew⟩ (.inl hlt)
      · rw [if_neg hlt] at hzero
        have hiff := hsingle hone hzero (Nat.not_lt.mp hlt)
        refine ⟨?_, fun h => ⟨rgn', ret, ⟨rfl, rfl⟩, hiff.mpr (h.resolve_left hlt)⟩⟩
        rintro ⟨rgn'', ret', ⟨rfl, rfl⟩, h⟩
        exact .inr (hiff.mp h)
    · refine iff_of_false ?_ fun h => hadj (h.emptied hcnt).1
      rintro ⟨rgn', ret, hadd, -⟩
      rw [addRegion_stale hcnt hadj] at hadd
      cases hadd
  · rcases hr.pos with ⟨hone, hzero⟩ | hpos
    · refine iff_of_true ⟨rgn.set 0 ⟨a, total⟩, 0, if_pos ⟨hone, by rw [hzero]⟩, ?_⟩
        ⟨fun h0 => by omega, fun i hi hne => absurd ?_ hne⟩
      · have hset : (rgn.set 0 ⟨a, total⟩).region 0 = ⟨a, total⟩ := by rw [set_region, if_pos rfl]
        exact (hsingle (show (rgn.set 0 ⟨a, total⟩).cnt = 1 from hone) hset le_rfl).mpr hnew
      · rw [show i = 0 by omega, hzero]
    · exact takes_iff_of_pos memory hr hfree hsize hend htotal hle hcnt hpos hno

end

end Table

/-! ## When allocation is safe -/

theorem Taken.forall_iff {lmb : Lmb} {size align maxAddr a : BitVec 64} {P : BitVec 64 → Prop}
    (ha : Taken lmb size align maxAddr a.toNat) :
    (∀ b : BitVec 64, Taken lmb size align maxAddr b.toNat → P b) ↔ P a :=
  ⟨fun h => h a ha, fun h _ hb => BitVec.eq_of_toNat_eq (highest_unique ha hb) ▸ h⟩

/-- `__lmb_alloc_base` returns zero, or a range that is as it should be, exactly when this holds for
the address where the search ends: the reserved table refuses the range; or the limit is not below
the size, and the table takes the range. -/
theorem lmbAllocBase_safe_iff (lmb : Lmb)
    (hm : ∀ i < lmb.memory.cnt, (lmb.memory.region i).span.hi < 2 ^ 64)
    (hr : ValidReserved lmb.reserved) {size align : BitVec 64} (maxAddr : BitVec 64)
      (hsize : 0 < size.toNat) {k : ℕ}
    (hk : align.toNat = 2 ^ k) :
    (lmbAllocBase lmb size align maxAddr).Safe lmb size align maxAddr ↔
      ∀ a : BitVec 64, Taken lmb size align maxAddr a.toNat → Refuses lmb.reserved a (alignUp size align) ∨
        (maxAddr ≠ allocAnywhere → size.toNat ≤ maxAddr.toNat) ∧
          Takes lmb.reserved a (alignUp size align) size := by
  rcases lmbAllocBase_takesHighest hk lmb size maxAddr with ⟨a, htaken, heq⟩ | ⟨hnone, heq⟩
  · rw [heq, Taken.forall_iff htaken]
    obtain ⟨i, hi, hcand, -⟩ := htaken
    by_cases hrefuse : Refuses lmb.reserved a (alignUp size align)
    · rw [reserveAt, addRegion_full hrefuse.1 hrefuse.2]
      exact iff_of_true (fun h0 => absurd rfl h0) (.inl hrefuse)
    rw [or_iff_right hrefuse]
    -- what is left is the range itself
    have hsafe : (reserveAt lmb a (alignUp size align)).Safe lmb size align maxAddr ↔ ∃ rgn' ret,
        lmb.reserved.addRegion a (alignUp size align) = some (rgn', ret) ∧
          Allocated lmb size align maxAddr a ⟨lmb.memory, rgn'⟩ := by
      rw [reserveAt]
      cases hadd : lmb.reserved.addRegion a (alignUp size align) with
      | none => simp [Alloc.Safe]
      | some r =>
        obtain ⟨rgn', ret⟩ := r
        have hret : ¬ ret < 0 := fun hneg => hrefuse (addRegion_neg hadd hneg).2
        have ha0 : a ≠ 0 := fun h0 => hcand.pos.ne' (congrArg BitVec.toNat h0)
        simp only [Alloc.Safe, if_neg hret, Option.some.injEq, Prod.mk.injEq]
        refine ⟨fun h => ⟨rgn', ret, ⟨rfl, rfl⟩, h ha0⟩, ?_⟩
        rintro ⟨_, _, ⟨rfl, rfl⟩, h⟩ -
        exact h
    rw [hsafe]
    by_cases hmax : maxAddr ≠ allocAnywhere → size.toNat ≤ maxAddr.toNat
    · have htop := firstTry_add_le align (hcand.eligible.le_searchTop hmax)
      have hbelow := hcand.below
      obtain ⟨hin, hlim⟩ := le_searchTop_iff.mp ((Nat.add_le_add_right hbelow _).trans htop)
      have hlt := hm i hi
      have hend : a.toNat + size.toNat < 2 ^ 64 := by omega
      have hfree := hcand.free.isFree hr.bound hend
      obtain ⟨hle, htotal⟩ := add_alignUp_le hk hcand.pos hcand.aligned hend.le
      rw [and_iff_right hmax, ← takes_iff lmb.memory hr hfree hsize hend htotal hle hrefuse]
      refine exists₂_congr fun rgn' ret => and_congr_right fun _ => ⟨fun h => h.reserved, fun h =>
        ⟨hcand.aligned, ⟨i, hi, hcand.above, hin⟩, hlim, ?_, h⟩⟩
      rintro x hx ⟨r, hrs, hxr⟩
      obtain ⟨j, hj, rfl⟩ := mem_spans.mp hrs
      have hor := hfree j hj
      simp only [mem_span, span_lo, span_hi] at hx hxr hor
      omega
    · refine iff_of_false ?_ fun h => hmax h.1
      rintro ⟨rgn', ret, -, hall⟩
      exact hmax fun h0 => (Nat.le_add_left _ _).trans (hall.below h0)
  · rw [heq]
    refine iff_of_true (fun h0 => absurd rfl h0) ?_
    rintro a ⟨i, hi, hcand, -⟩
    exact absurd hcand (hnone i hi _)

/-- 64 KiB of memory at `0x1000`. -/
def smallMemory : LmbRegion := ⟨1, fun _ => ⟨0x1000, 0x10000⟩, one_le_maxLmbRegions⟩

theorem smallMemory_bound (i : ℕ) (_ : i < smallMemory.cnt) :
    (smallMemory.region i).span.hi < 2 ^ 64 :=
  show (⟨0x1000, 0x10000⟩ : LmbProperty).span.hi < 2 ^ 64 by decide

/-- Two reserved regions, the higher one in front. -/
def unordered : LmbRegion := ⟨2, fun i => if i = 0 then ⟨0x6000, 0x2000⟩ else
    ⟨0x3000, 0x1000⟩, by decide⟩

def unorderedLmb : Lmb := ⟨smallMemory, unordered⟩

theorem validReserved_unordered : ValidReserved unordered := by
  have hpos : ∀ i < 2, 0 < (unordered.region i).size.toNat := by decide
  have hbound : ∀ i < 2, (unordered.region i).span.hi < 2 ^ 64 := by decide
  exact ⟨.inr hpos, hbound⟩

/-- The address returned. -/
def Alloc.addr : Alloc → BitVec 64
  | .ret a _ => a
  | _ => 0

/-- An address that is returned is the one where the search ends. -/
theorem Taken.eq_addr {lmb : Lmb} {size align maxAddr a b : BitVec 64} {k : ℕ}
    (hk : align.toNat = 2 ^ k)
    (ha : Taken lmb size align maxAddr a.toNat)
      (hb : (lmbAllocBase lmb size align maxAddr).addr = b) (h0 : b ≠ 0) :
    a = b := by
  rcases lmbAllocBase_takesHighest hk lmb size maxAddr with ⟨c, hc, heq⟩ | ⟨-, heq⟩
  · rw [BitVec.eq_of_toNat_eq (highest_unique ha hc)]
    rw [heq, reserveAt] at hb
    split at hb
    · exact absurd hb.symm h0
    · dsimp only [Alloc.addr] at hb
      split at hb
      · exact absurd hb.symm h0
      · exact hb
  · rw [heq] at hb
    exact absurd hb.symm h0

/-- 8 KiB below `0x8000`: the search jumps below the first region, and the range joins both. -/
theorem lmbAllocBase_safe_iff_unordered :
    (lmbAllocBase unorderedLmb 0x2000 0x1000 0x8000).addr = 0x4000 ∧
    (lmbAllocBase unorderedLmb 0x2000 0x1000 0x8000).Safe unorderedLmb 0x2000 0x1000 0x8000 := by
  have haddr : (lmbAllocBase unorderedLmb 0x2000 0x1000 0x8000).addr = 0x4000 := by decide +kernel
  refine ⟨haddr, (lmbAllocBase_safe_iff (k := 12) unorderedLmb smallMemory_bound
    validReserved_unordered 0x8000 (by decide) rfl).mpr fun a ha => .inr ⟨fun _ => by decide, ?_⟩⟩
  obtain rfl := ha.eq_addr (k := 12) rfl haddr (by decide)
  have hjoins : ∀ i < 2, (unordered.region i).size ≠ 0 → unordered.stopsAt 0x4000 0x2000 i = true →
      (∀ j < i, unordered.stopsAt 0x4000 0x2000 j = false) →
      0x4000 + 0x2000 ≤ (joined unordered 0x4000 0x2000 i).last.toNat + 1 := by decide +kernel
  exact ⟨fun h0 => absurd h0 (by decide), hjoins⟩

/-- 16 KiB are asked for below `0x2000`: the address returned lies outside of memory. -/
theorem not_safe_limit_below_size :
    (lmbAllocBase unorderedLmb 0x4000 0x1000 0x2000).addr = 0xffffffffffffe000 ∧
    ¬ (lmbAllocBase unorderedLmb 0x4000 0x1000 0x2000).Safe unorderedLmb 0x4000 0x1000 0x2000 := by
  have haddr : (lmbAllocBase unorderedLmb 0x4000 0x1000 0x2000).addr = 0xffffffffffffe000 := by
    decide +kernel
  refine ⟨haddr, fun hsafe => ?_⟩
  cases halloc : lmbAllocBase unorderedLmb 0x4000 0x1000 0x2000 with
  | ret a lmb' =>
    rw [halloc] at haddr hsafe
    obtain rfl : a = 0xffffffffffffe000 := haddr
    have hbelow := (hsafe (by decide)).below (by decide)
    exact absurd hbelow (by decide)
  | outOfBounds | hang =>
    rw [halloc] at hsafe
    exact hsafe

end UBoot.Memory
