import UBoot.Common.Align
import UBoot.Memory.LmbSpans

/-!
# Where the search for a free range ends

In each memory region `__lmb_alloc_base` first tries the highest address, and then jumps below the
reserved regions in its way. All of this is computed modulo `2 ^ 64`. The address where the search
ends is described without it, whatever the tables are: it is the highest candidate of the last
memory region that has one.
-/

namespace UBoot.Memory

open UBoot.Common LmbRegion LmbProperty List

/-! ## The first address tried -/

/-- Where the search in a memory region starts from. -/
def searchTop (p : LmbProperty) (maxAddr : BitVec 64) : ℕ :=
  if maxAddr = allocAnywhere then p.span.hi else min p.span.hi maxAddr.toNat

variable {p : LmbProperty} {maxAddr size align base : BitVec 64} {i : ℕ}

theorem le_searchTop_iff {x : ℕ} :
    x ≤ searchTop p maxAddr ↔ x ≤ p.span.hi ∧ (maxAddr ≠ allocAnywhere → x ≤ maxAddr.toNat) := by
  rw [searchTop]
  split <;> next h => simp [h]

/-- A memory region in which a range is looked for. -/
def Eligible (p : LmbProperty) (size maxAddr : BitVec 64) : Prop :=
  size.toNat ≤ p.size.toNat ∧ (maxAddr = allocAnywhere ∨ p.base.toNat < maxAddr.toNat)

theorem Eligible.le_searchTop (h : Eligible p size maxAddr)
    (hmax : maxAddr ≠ allocAnywhere → size.toNat ≤ maxAddr.toNat) : size.toNat ≤ searchTop p maxAddr :=
  le_searchTop_iff.mpr ⟨by rw [span_hi]; exact Nat.le_add_left_of_le h.1, hmax⟩

/-- The first address tried: `size` below the top, modulo `2 ^ 64`, aligned. -/
def firstTry (p : LmbProperty) (size align maxAddr : BitVec 64) : ℕ :=
  roundDown ((searchTop p maxAddr + 2 ^ 64 - size.toNat) % 2 ^ 64) align.toNat

theorem firstTry_add_le (align : BitVec 64)
    (h : size.toNat ≤ searchTop p maxAddr) : firstTry p size align maxAddr + size.toNat ≤
    searchTop p maxAddr := by
  have hround := roundDown_le ((searchTop p maxAddr + 2 ^ 64 - size.toNat) % 2 ^ 64) align.toNat
  unfold firstTry
  omega

theorem firstCandidate_not_eligible (he : ¬ Eligible p size maxAddr) :
    firstCandidate p size align maxAddr = none := by
  rw [firstCandidate]
  split_ifs with h₁ h₂ h₃
  · rfl
  · exact absurd ⟨Nat.not_lt.mp h₁, .inl h₂⟩ he
  · exact absurd ⟨Nat.not_lt.mp h₁, .inr h₃⟩ he
  · rfl

section Align

variable {align : BitVec 64} {k : ℕ} (hk : align.toNat = 2 ^ k)

include hk

theorem toNat_alignDown (x : BitVec 64) :
    (alignDown x align).toNat = roundDown x.toNat align.toNat :=
  toNat_and_not_sub_one hk x

/-- The next address tried: `size` below a reserved region. -/
theorem toNat_alignDown_sub (h : size.toNat ≤ base.toNat) :
    (alignDown (base - size) align).toNat = roundDown (base.toNat - size.toNat) align.toNat := by
  rw [toNat_alignDown hk, BitVec.toNat_sub_of_le (BitVec.le_def.mpr h)]

theorem align_pos : 0 < align.toNat := hk ▸ Nat.two_pow_pos k

theorem align_dvd : align.toNat ∣ 2 ^ 64 := by
  have hlt := align.isLt
  rw [hk] at hlt ⊢
  exact Nat.pow_dvd_pow 2 ((Nat.pow_lt_pow_iff_right (by decide)).mp hlt).le

theorem toNat_alignUp (h : size.toNat + align.toNat ≤ 2 ^ 64) :
    (alignUp size align).toNat = roundUp size.toNat align.toNat := by
  have hpos := align_pos hk
  rw [alignUp, toNat_and_not_sub_one hk]
  congr 1
  bv_omega

/-- Behind an aligned address there is as much room for the size rounded up as for the size. -/
theorem add_alignUp_le {a : ℕ} (hpos : 0 < a) (ha : align.toNat ∣ a)
    (hend : a + size.toNat ≤ 2 ^ 64) :
    size.toNat ≤ (alignUp size align).toNat ∧ a + (alignUp size align).toNat ≤ 2 ^ 64 := by
  have hle := Nat.le_of_dvd hpos ha
  have hup : roundUp size.toNat align.toNat ≤ 2 ^ 64 - a :=
    roundUp_le (align_pos hk) (Nat.dvd_sub (align_dvd hk) ha) (by omega)
  rw [toNat_alignUp hk (by omega)]
  exact ⟨le_roundUp (align_pos hk), by omega⟩

/-- The first candidate computed in a region. -/
theorem firstCandidate_eligible (he : Eligible p size maxAddr) :
    ∃ c, firstCandidate p size align maxAddr = some c ∧ c.toNat = firstTry p size align maxAddr := by
  obtain ⟨hsize, hmax⟩ := he
  have hsub : ∀ x : BitVec 64, (alignDown (x - size) align).toNat =
      roundDown ((x.toNat + 2 ^ 64 - size.toNat) % 2 ^ 64) align.toNat := by
    intro x
    rw [toNat_alignDown hk, BitVec.toNat_sub]
    congr 2
    omega
  have hend : (p.base + p.size).toNat = p.span.hi % 2 ^ 64 := BitVec.toNat_add _ _
  have hhi : p.span.hi = p.base.toNat + p.size.toNat := rfl
  rw [firstCandidate, if_neg (by rw [BitVec.lt_def]; omega)]
  by_cases h0 : maxAddr = allocAnywhere
  · rw [if_pos h0]
    refine ⟨_, rfl, ?_⟩
    rw [hsub, hend, firstTry, searchTop, if_pos h0]
    congr 1
    omega
  rw [if_neg h0, if_pos (BitVec.lt_def.mpr (hmax.resolve_left h0))]
  refine ⟨_, rfl, ?_⟩
  rw [hsub, firstTry, searchTop, if_neg h0]
  congr 3
  -- a region that wraps around is taken to reach the end of the address space
  have hlt := maxAddr.isLt
  have hlast : (-1 : BitVec 64).toNat = 2 ^ 64 - 1 := by decide
  by_cases hwrap : p.base + p.size < p.base
  · rw [if_pos hwrap, if_neg (by rw [BitVec.lt_def, hlast]; omega)]
    rw [BitVec.lt_def, hend] at hwrap
    omega
  · rw [if_neg hwrap]
    rw [BitVec.lt_def, hend] at hwrap
    split
    · next h =>
      rw [BitVec.lt_def, hend] at h
      omega
    · next h =>
      rw [BitVec.lt_def, hend] at h
      omega

end Align

/-! ## Candidates -/

/-- No reserved region overlaps the `size` bytes from `a` on, as far as ends modulo `2 ^ 64` show
it. -/
def SeemsFree (rgn : LmbRegion) (a size : ℕ) : Prop :=
  ∀ j < rgn.cnt, (rgn.region j).span.hi % 2 ^ 64 ≤ a ∨ (a + size) % 2 ^ 64 ≤ (rgn.region j).span.lo

/-- An address at which the search in memory region `i` may end. The range only wraps around at the
first address that is tried. -/
structure Candidate (lmb : Lmb) (size align maxAddr : BitVec 64) (i a : ℕ) : Prop where
  eligible : Eligible (lmb.memory.region i) size maxAddr
  pos : 0 < a
  aligned : align.toNat ∣ a
  above : (lmb.memory.region i).span.lo ≤ a
  below : a ≤ firstTry (lmb.memory.region i) size align maxAddr
  ends : a = firstTry (lmb.memory.region i) size align maxAddr ∨ a + size.toNat < 2 ^ 64
  free : SeemsFree lmb.reserved a size.toNat

/-- The highest address with `P` in the last of `n` regions that has one. -/
def Highest (n : ℕ) (P : ℕ → ℕ → Prop) (a : ℕ) : Prop :=
  ∃ i < n, P i a ∧ (∀ a', P i a' → a' ≤ a) ∧ ∀ j, i < j → j < n → ∀ a', ¬ P j a'

/-- The highest candidate of the last memory region that has one. -/
def Taken (lmb : Lmb) (size align maxAddr : BitVec 64) (a : ℕ) : Prop :=
  Highest lmb.memory.cnt (Candidate lmb size align maxAddr) a

/-- What becomes of an allocation that begins at `a`. -/
def reserveAt (lmb : Lmb) (a size : BitVec 64) : Alloc :=
  match lmb.reserved.addRegion a size with
  | none => .outOfBounds
  | some (rgn, r) => .ret (if r < 0 then 0 else a) { lmb with reserved := rgn }

/-- The range is reserved at the highest address with `P`, or zero is returned if there is none. -/
def Alloc.TakesHighest (lmb : Lmb) (size align : BitVec 64) (P : ℕ → ℕ → Prop) (r : Alloc) : Prop :=
  (∃ a : BitVec 64, Highest lmb.memory.cnt P a.toNat ∧ r = reserveAt lmb a (alignUp size align)) ∨
    (∀ i < lmb.memory.cnt, ∀ a, ¬ P i a) ∧ r = .ret 0 lmb

variable {lmb : Lmb}

theorem highest_unique {P : ℕ → ℕ → Prop} {n a b : ℕ} (ha : Highest n P a) (hb : Highest n P b) :
    a = b := by
  obtain ⟨i, hi, hpa, hmaxa, hnoa⟩ := ha
  obtain ⟨j, hj, hpb, hmaxb, hnob⟩ := hb
  rcases Nat.lt_trichotomy i j with h | rfl | h
  · exact absurd hpb (hnoa j h hj b)
  · exact Nat.le_antisymm (hmaxb a hpa) (hmaxa b hpb)
  · exact absurd hpa (hnob i h hi a)

theorem addrsOverlap_iff {rgn : LmbRegion} {j : ℕ} :
    addrsOverlap base size (rgn.region j).base (rgn.region j).size = true ↔
      base.toNat < (rgn.region j).span.hi % 2 ^ 64 ∧
        (rgn.region j).span.lo < (base.toNat + size.toNat) % 2 ^ 64 := by
  simp only [addrsOverlap, Bool.and_eq_true, decide_eq_true_iff, BitVec.lt_def,
    BitVec.toNat_add, span_hi, span_lo]

theorem seemsFree_of_overlapsRegion {rgn : LmbRegion} (h : rgn.overlapsRegion base size = none) :
    SeemsFree rgn base.toNat size.toNat := by
  intro j hj
  have hno := find?_eq_none.mp h j (mem_range.mpr hj)
  rw [addrsOverlap_iff] at hno
  omega

/-! ## The search -/

/-- The search in memory region `i` ends with its highest candidate, or goes on when the region has
none. -/
def Search.Ends (lmb : Lmb) (size align maxAddr : BitVec 64) (i : ℕ) : Search → Prop
  | .next => ∀ a, ¬ Candidate lmb size align maxAddr i a
  | .done r => ∃ a : BitVec 64, r = reserveAt lmb a (alignUp size align) ∧
      Candidate lmb size align maxAddr i a.toNat ∧ ∀ a', Candidate lmb size align maxAddr i a' →
      a' ≤ a.toNat

section Search

variable {k : ℕ} (hk : align.toNat = 2 ^ k)

include hk

/-- The `while` loop. All candidates of the region lie at or below the address tried. -/
theorem allocLoop_ends (he : Eligible (lmb.memory.region i) size maxAddr) (fuel : ℕ)
    (hfuel : base.toNat < fuel) (hdvd : align.toNat ∣ base.toNat)
    (hle : base.toNat ≤ firstTry (lmb.memory.region i) size align maxAddr)
    (hends : base.toNat = firstTry (lmb.memory.region i) size align maxAddr ∨
      base.toNat + size.toNat < 2 ^ 64)
    (hall : ∀ a, Candidate lmb size align maxAddr i a → a ≤ base.toNat) :
    (allocLoop lmb (lmb.memory.region i).base size align fuel base).Ends lmb size align maxAddr i := by
  induction fuel generalizing base with
  | zero => omega
  | succ fuel ih =>
    rw [allocLoop]
    split
    · next htry =>
      have hpos : 0 < base.toNat := Nat.pos_of_ne_zero fun h0 => htry.1 (BitVec.eq_of_toNat_eq h0)
      cases hover : lmb.reserved.overlapsRegion base size with
      | none =>
        have hcand : Candidate lmb size align maxAddr i base.toNat :=
          ⟨he, hpos, hdvd, BitVec.le_def.mp htry.2, hle, hends, seemsFree_of_overlapsRegion hover⟩
        cases hadd : lmb.reserved.addRegion base (alignUp size align) <;>
          exact ⟨base, by rw [reserveAt, hadd], hcand, hall⟩
      | some j =>
        have hj : j < lmb.reserved.cnt := mem_range.mp (mem_of_find?_eq_some hover)
        have hfound := find?_some hover
        obtain ⟨hhi, hlo⟩ := addrsOverlap_iff.mp hfound
        -- a candidate lies below this address and ends below the reserved region
        have hbelow : ∀ a, Candidate lmb size align maxAddr i a →
            a + size.toNat ≤ (lmb.reserved.region j).span.lo := by
          intro a ha
          have hle := hall a ha
          have hends := ha.ends
          have hfree := ha.free j hj
          rcases Nat.eq_or_lt_of_le hle with rfl | hlt <;> omega
        rw [span_lo] at hlo hbelow
        have hres := (lmb.reserved.region j).base.isLt
        simp only
        split
        · next hlt =>
          rw [BitVec.lt_def] at hlt
          intro a ha
          have := hbelow a ha
          omega
        · next hge =>
          rw [BitVec.lt_def, not_lt] at hge
          have hnext := toNat_alignDown_sub hk hge
          have hround := roundDown_le ((lmb.reserved.region j).base.toNat - size.toNat) align.toNat
          have hlt : (alignDown ((lmb.reserved.region j).base - size) align).toNat < base.toNat := by omega
          refine ih (by omega) ?_ (by omega) (by omega) fun a ha => ?_
          · rw [hnext]
            exact dvd_roundDown _ _
          · rw [hnext]
            have := hbelow a ha
            exact le_roundDown ha.aligned (by omega)
    · next hno =>
      intro a ha
      have hle := hall a ha
      refine hno ⟨fun h0 => ?_, BitVec.le_def.mpr (ha.above.trans hle)⟩
      rw [h0] at hle
      exact absurd hle ha.pos.not_ge

/-- The search through the memory regions. -/
theorem allocRegions_ends (n : ℕ) (hn : n ≤ lmb.memory.cnt)
    (hno : ∀ j, n ≤ j → j < lmb.memory.cnt → ∀ a, ¬ Candidate lmb size align maxAddr j a) :
    (allocRegions lmb size align maxAddr n).TakesHighest lmb size align
      (Candidate lmb size align maxAddr) := by
  induction n with
  | zero => exact .inr ⟨fun i hi => hno i (Nat.zero_le i) hi, rfl⟩
  | succ n ih =>
    -- the rest of the search, when this region has no candidate
    have hrest := fun hnone : ∀ a, ¬ Candidate lmb size align maxAddr n a => ih (Nat.le_of_succ_le hn)
      fun j hj hlt => (Nat.eq_or_lt_of_le hj).elim (fun heq => heq ▸ hnone) fun hgt => hno j hgt hlt
    rw [allocRegions]
    by_cases he : Eligible (lmb.memory.region n) size maxAddr
    · obtain ⟨c, hc, htry⟩ := firstCandidate_eligible hk he
      have hloop := allocLoop_ends hk he (c.toNat + 1) (Nat.lt_succ_self _)
        (htry ▸ dvd_roundDown _ _) htry.le (.inl htry) fun a ha => htry ▸ ha.below
      simp only [hc]
      cases hs : allocLoop lmb (lmb.memory.region n).base size align (c.toNat + 1) c with
      | next =>
        rw [hs] at hloop
        exact hrest hloop
      | done r =>
        rw [hs] at hloop
        obtain ⟨a, rfl, hcand, hmax⟩ := hloop
        exact .inl ⟨a, ⟨n, hn, hcand, hmax, fun j hj => hno j hj⟩, rfl⟩
    · simp only [firstCandidate_not_eligible he]
      exact hrest fun a ha => he ha.eligible

/-- `__lmb_alloc_base` takes the highest candidate. -/
theorem lmbAllocBase_takesHighest (lmb : Lmb) (size maxAddr : BitVec 64) :
    (lmbAllocBase lmb size align maxAddr).TakesHighest lmb size align (Candidate lmb size align maxAddr) :=
  allocRegions_ends hk _ le_rfl fun _ hle hlt => absurd hlt hle.not_gt

end Search

end UBoot.Memory
