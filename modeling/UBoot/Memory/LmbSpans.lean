import Mathlib.Data.Nat.Basic
import Mathlib.Tactic.Set
import Mathlib.Tactic.SplitIfs
import UBoot.Common.Spans
import UBoot.Memory.LmbRegion

/-!
# Tables of regions as lists of spans

The entries in use of a table, as spans of addresses, and what the functions that change a table do
to this list.
-/

namespace UBoot.Memory

open UBoot.Common List Function

/-- The addresses of a region. -/
def LmbProperty.span (p : LmbProperty) : Span ℕ := ⟨p.base.toNat, p.base.toNat + p.size.toNat⟩

@[simp] theorem LmbProperty.span_lo (p : LmbProperty) : p.span.lo = p.base.toNat := rfl

@[simp] theorem LmbProperty.span_hi (p : LmbProperty) : p.span.hi = p.base.toNat + p.size.toNat := rfl

theorem LmbProperty.mem_span {p : LmbProperty} {a : ℕ} :
    a ∈ p.span ↔ p.base.toNat ≤ a ∧ a < p.base.toNat + p.size.toNat := Iff.rfl

theorem LmbProperty.eq_zero_of_toNat {p : LmbProperty} (hb : p.base.toNat = 0)
    (hs : p.size.toNat = 0) : p = ⟨0, 0⟩ :=
  congr (congrArg LmbProperty.mk (BitVec.eq_of_toNat_eq hb)) (BitVec.eq_of_toNat_eq hs)

theorem LmbProperty.base_mem_span {p : LmbProperty} (h : 0 < p.size.toNat) :
    p.base.toNat ∈ p.span :=
  ⟨le_rfl, Nat.lt_add_of_pos_right h⟩

namespace LmbRegion

variable {rgn rgn' : LmbRegion} {i : ℕ}

/-- The entries in use. -/
def spans (rgn : LmbRegion) : List (Span ℕ) :=
  (List.range rgn.cnt).map fun i => (rgn.region i).span

@[simp] theorem length_spans : rgn.spans.length = rgn.cnt := by simp [spans]

theorem getElem?_spans (k : ℕ) : rgn.spans[k]? = if k < rgn.cnt then some
    (rgn.region k).span else none := by
  rw [spans, getElem?_map]
  split
  · next hk => rw [getElem?_range hk, Option.map_some]
  · next hk => rw [getElem?_eq_none (by simpa using hk), Option.map_none]

variable {r : Span ℕ} {a : ℕ} {base size : BitVec 64} {p : LmbProperty}

theorem mem_spans : r ∈ rgn.spans ↔ ∃ i < rgn.cnt, (rgn.region i).span = r := by
  simp [spans]

theorem span_mem_spans (hi : i < rgn.cnt) :
    (rgn.region i).span ∈ rgn.spans := mem_spans.mpr ⟨i, hi, rfl⟩

/-- The spans in front of entry `i`. -/
theorem mem_take_spans (hi : i ≤ rgn.cnt) : r ∈ rgn.spans.take i ↔ ∃ j < i,
    (rgn.region j).span = r := by
  rw [spans, ← map_take, take_range, min_eq_left hi]
  simp

/-- The spans from entry `i` on. -/
theorem mem_drop_spans : r ∈ rgn.spans.drop i ↔ ∃ j, i ≤ j ∧ j < rgn.cnt ∧
    (rgn.region j).span = r := by
  simp only [mem_iff_getElem?, getElem?_drop, getElem?_spans]
  constructor
  · rintro ⟨k, hk⟩
    split at hk
    · next hlt => exact ⟨i + k, by omega, hlt, by simpa using hk⟩
    · cases hk
  · rintro ⟨j, hij, hj, rfl⟩
    exact ⟨j - i, by rw [show i + (j - i) = j by omega, if_pos hj]⟩

theorem drop_spans (hi : i < rgn.cnt) : rgn.spans.drop i = (rgn.region i).span :: rgn.spans.drop
    (i + 1) := by
  rw [drop_eq_getElem_cons (by rwa [length_spans])]
  simp [spans]

theorem spans_split (hi : i < rgn.cnt) :
    rgn.spans = rgn.spans.take i ++ (rgn.region i).span :: rgn.spans.drop (i + 1) := by
  rw [← drop_spans hi, take_append_drop]

theorem covers_split (hi : i < rgn.cnt) : Covers rgn.spans a ↔
    a ∈ (rgn.region i).span ∨ Covers (rgn.spans.take i ++ rgn.spans.drop (i + 1)) a := by
  rw [← covers_append_cons, ← spans_split hi]

/-- A list is that of a table when it agrees with it entry by entry. -/
theorem spans_eq {l : List (Span ℕ)} (hlen : l.length = rgn.cnt)
    (h : ∀ k < rgn.cnt, l[k]? = some (rgn.region k).span) : rgn.spans = l := by
  refine ext_getElem? fun k => ?_
  rw [getElem?_spans]
  split
  · next hk => exact (h k hk).symm
  · next hk => exact (getElem?_eq_none (by omega)).symm

/-! ## Changing a table -/

theorem set_region (p : LmbProperty) (k : ℕ) :
    (rgn.set i p).region k = if k = i then p else rgn.region k := by
  simp [set, update_apply]

theorem spans_set (p : LmbProperty) : (rgn.set i p).spans = rgn.spans.set i p.span := by
  refine spans_eq (by simp [set]) fun k hk => ?_
  have hk' : k < rgn.cnt := hk
  rw [set_region, getElem?_set, getElem?_spans]
  by_cases heq : i = k
  · subst heq
    simp [hk']
  · simp [heq, hk', Ne.symm heq]

theorem spans_set_split (hi : i < rgn.cnt) (p : LmbProperty) :
    (rgn.set i p).spans = rgn.spans.take i ++ p.span :: rgn.spans.drop (i + 1) := by
  rw [spans_set, set_eq_take_append_cons_drop, length_spans, if_pos hi]

theorem copyDown_apply (n i k : ℕ) (region : ℕ → LmbProperty) :
    copyDown n i region k = if i ≤ k ∧ k < i + n then region (k + 1) else region k := by
  induction n generalizing i region with
  | zero => rw [copyDown, if_neg (by omega)]
  | succ n ih =>
    rw [copyDown, ih]
    simp only [update_apply]
    split_ifs <;> first | rfl | omega | (congr 1; omega)

/-- `lmb_remove_region` takes one span out of the list. -/
theorem removeRegion_spec (hi : i < rgn.cnt) :
    ∃ rgn', rgn.removeRegion i = some rgn' ∧ rgn'.cnt = rgn.cnt - 1 ∧
      rgn'.spans = rgn.spans.take i ++ rgn.spans.drop (i + 1) := by
  rw [removeRegion, if_neg (by omega)]
  refine ⟨_, rfl, rfl, spans_eq ?_ fun k hk => ?_⟩
  · simp only [length_append, length_take, length_drop, length_spans]
    omega
  · have hk' : k < rgn.cnt - 1 := hk
    simp only [copyDown_apply]
    rw [← eraseIdx_eq_take_drop_succ, getElem?_eraseIdx, getElem?_spans, getElem?_spans]
    split_ifs <;> first | rfl | omega

/-- `lmb_coalesce_regions` of two neighbours puts one span in their place. -/
theorem coalesceRegions_spec (hi : i + 1 < rgn.cnt) :
    ∃ rgn', rgn.coalesceRegions i (i + 1) = some rgn' ∧ rgn'.cnt = rgn.cnt - 1 ∧
        rgn'.spans = rgn.spans.take i ++ (⟨(rgn.region i).base, (rgn.region i).size +
          (rgn.region (i + 1)).size⟩ : LmbProperty).span :: rgn.spans.drop (i + 2) := by
  set p : LmbProperty := ⟨(rgn.region i).base, (rgn.region i).size + (rgn.region (i + 1)).size⟩
  have hi' : i + 1 < (rgn.set i p).cnt := hi
  obtain ⟨rgn', hrem, hcnt, hspans⟩ := removeRegion_spec hi'
  refine ⟨rgn', hrem, hcnt, ?_⟩
  have hlen : i < (rgn.spans.set i p.span).length := by
    rw [length_set, length_spans]
    omega
  rw [hspans, spans_set, drop_set_of_lt (by omega), take_succ_eq_append_getElem hlen,
    take_set_of_le (le_refl i)]
  simp

/-! ## Inserting a region -/

/-- The entries are ordered by their base. -/
def Ordered (rgn : LmbRegion) : Prop :=
  ∀ i j, i ≤ j → j < rgn.cnt → (rgn.region i).base ≤ (rgn.region j).base

/-- The insertion loop moves the entries from some index on up by one, where all bases are larger
than the new one and the entry in front has no larger base. -/
theorem insertLoop_spec (base size : BitVec 64) (n : ℕ) (region : ℕ → LmbProperty) :
    ∃ p ≤ n, (∀ k, p ≤ k → k < n → base < (region k).base) ∧ (0 < p → (region (p - 1)).base ≤ base) ∧
      ∀ k, insertLoop base size n region k = if p < k ∧ k ≤ n then region (k - 1)
        else if k = p ∧ 0 < p then ⟨base, size⟩ else region k := by
  induction n generalizing region with
  | zero =>
    refine ⟨0, le_rfl, by omega, by omega, fun k => ?_⟩
    rw [insertLoop, if_neg (by omega), if_neg (by omega)]
  | succ n ih =>
    by_cases hlt : base < (region n).base
    · obtain ⟨p, hpn, habove, hbelow, hres⟩ := ih (update region (n + 1) (region n))
      have hupd : ∀ k ≠ n + 1, update region (n + 1) (region n) k = region k :=
        fun k hk => update_of_ne hk _ _
      refine ⟨p, by omega, fun k hpk hk => ?_, fun hp => ?_, fun k => ?_⟩
      · rcases Nat.lt_succ_iff_lt_or_eq.mp hk with hk | rfl
        · rw [← hupd k (by omega)]
          exact habove k hpk hk
        · exact hlt
      · rw [← hupd (p - 1) (by omega)]
        exact hbelow hp
      · rw [insertLoop, if_pos hlt, hres]
        by_cases hk : k = n + 1
        · -- the entry that was moved first
          subst hk
          rw [if_neg (by omega), if_neg (by omega), update_self, if_pos (by omega), Nat.add_sub_cancel]
        · rw [hupd k hk]
          split_ifs <;> first | rfl | omega | exact hupd (k - 1) (by omega)
    · refine ⟨n + 1, le_rfl, by omega, fun _ => ?_, fun k => ?_⟩
      · simpa using hlt
      · rw [insertLoop, if_neg hlt]
        simp [update_apply]

/-- In an ordered table the new region gets its entry between the smaller and the larger bases. -/
theorem insertRegion_spec (ho : rgn.Ordered) (hcnt : 0 < rgn.cnt) (base size : BitVec 64)
    (h : rgn.cnt < maxLmbRegions) :
    ∃ p ≤ rgn.cnt, (∀ k, p ≤ k → k < rgn.cnt → base < (rgn.region k).base) ∧
      (∀ k < p, (rgn.region k).base ≤ base) ∧ (rgn.insertRegion base size h).spans =
        rgn.spans.take p ++ (⟨base, size⟩ : LmbProperty).span :: rgn.spans.drop p := by
  obtain ⟨p, hpn, habove, hbelow, hres⟩ := insertLoop_spec base size rgn.cnt rgn.region
  have hle : ∀ k < p, (rgn.region k).base ≤ base := fun k hk =>
    BitVec.le_trans (ho k (p - 1) (by omega) (by omega)) (hbelow (by omega))
  refine ⟨p, hpn, habove, hle, spans_eq ?_ fun k hk => ?_⟩
  · simp only [length_append, length_take, length_cons, length_drop, length_spans, insertRegion]
    omega
  · -- entry 0 is overwritten exactly when the new region belongs in front of all others
    have hzero : (base < (insertLoop base size rgn.cnt rgn.region 0).base) ↔ p = 0 := by
      rw [hres, if_neg (by omega)]
      by_cases hp : p = 0
      · rw [if_neg (by omega)]
        exact ⟨fun _ => hp, fun _ => habove 0 (by omega) hcnt⟩
      · rw [if_neg (by omega)]
        exact ⟨fun hlt => absurd hlt (BitVec.not_lt.mpr (hle 0 (by omega))), fun h0 => absurd h0 hp⟩
    have hregion : ((rgn.insertRegion base size h).region k) =
        if k < p then rgn.region k else if k = p then ⟨base, size⟩ else rgn.region (k - 1) := by
      have hk' : k < rgn.cnt + 1 := hk
      simp only [insertRegion, hzero]
      by_cases hp : p = 0
      · rw [if_pos hp, update_apply, hres]
        split_ifs <;> first | rfl | omega
      · rw [if_neg hp, hres]
        split_ifs <;> first | rfl | omega
    have hlen : (rgn.spans.take p).length = p := by
      rw [length_take, length_spans]
      omega
    have hk' : k < rgn.cnt + 1 := hk
    rw [hregion, getElem?_append, hlen]
    split_ifs with h₁ h₂
    · rw [getElem?_take_of_lt h₁, getElem?_spans, if_pos (by omega)]
    · subst h₂
      simp
    · rw [show k - p = (k - p - 1) + 1 by omega, getElem?_cons_succ, getElem?_drop,
        getElem?_spans, if_pos (by omega), show p + (k - p - 1) = k - 1 by omega]

/-- Whatever the order, the entries are then those from before and the new region. -/
theorem insertRegion_region (hcnt : 0 < rgn.cnt) (base size : BitVec 64)
    (h : rgn.cnt < maxLmbRegions) :
    (∃ k < rgn.cnt + 1, (rgn.insertRegion base size h).region k = ⟨base, size⟩) ∧
      ∀ k < rgn.cnt + 1, (rgn.insertRegion base size h).region k = ⟨base, size⟩ ∨
        ∃ j < rgn.cnt, (rgn.insertRegion base size h).region k = rgn.region j := by
  obtain ⟨p, hpn, habove, -, hres⟩ := insertLoop_spec base size rgn.cnt rgn.region
  have hold : ∀ k < rgn.cnt + 1, insertLoop base size rgn.cnt rgn.region k = ⟨base, size⟩ ∨
      ∃ j < rgn.cnt, insertLoop base size rgn.cnt rgn.region k = rgn.region j := by
    intro k hk
    rw [hres]
    split_ifs with h₁ h₂
    · exact .inr ⟨k - 1, by omega, rfl⟩
    · exact .inl rfl
    · exact .inr ⟨k, by omega, rfl⟩
  simp only [insertRegion]
  split
  · refine ⟨⟨0, Nat.succ_pos _, update_self ..⟩, fun k hk => ?_⟩
    rcases Nat.eq_zero_or_pos k with rfl | hpos
    · exact .inl (update_self ..)
    · rw [update_of_ne hpos.ne']
      exact hold k hk
  · next hzero =>
    refine ⟨⟨p, by omega, ?_⟩, hold⟩
    have hp : 0 < p := Nat.pos_of_ne_zero fun hp => by
      subst hp
      rw [hres, if_neg (by omega), if_neg (by omega)] at hzero
      exact hzero (habove 0 le_rfl hcnt)
    rw [hres, if_neg (by omega), if_pos ⟨rfl, hp⟩]

/-- Adding to a table without regions: the stale first entry may come back instead. -/
theorem addRegion_emptied (hcnt : rgn.cnt = 0) (hadj : rgn.regionsAdjacent 0 1 = 0)
    (base size : BitVec 64) : ∃ rgn' ret, rgn.addRegion base size = some (rgn', ret) ∧ rgn'.cnt = 1 ∧
      rgn'.region 0 = if base < (rgn.region 0).base then ⟨base, size⟩ else rgn.region 0 := by
  have htouch : ¬ rgn.touchesNext rgn.cnt = true := by
    rw [touchesNext, hcnt, hadj]
    simp
  have hroom : rgn.cnt < maxLmbRegions := by
    rw [hcnt]
    decide
  refine ⟨rgn.insertRegion base size hroom, 0, ?_, ?_, ?_⟩
  · rw [addRegion, if_neg (by omega), hcnt]
    simp only [range_zero, find?_nil, addApart]
    rw [if_neg htouch, dif_pos hroom]
  · simp [insertRegion, hcnt]
  · simp only [insertRegion, hcnt, insertLoop]
    split
    · exact update_self ..
    · rfl

/-- If the first two stale entries are adjacent, `lmb_remove_region` runs off the table. -/
theorem addRegion_stale (hcnt : rgn.cnt = 0) (hadj : rgn.regionsAdjacent 0 1 ≠ 0)
    (base size : BitVec 64) : rgn.addRegion base size = none := by
  have htouch : rgn.touchesNext rgn.cnt = true := by
    rw [touchesNext, decide_eq_true_iff, hcnt]
    exact ⟨by decide, hadj⟩
  rw [addRegion, hcnt]
  rw [addApart, if_pos htouch]
  exact congrArg (Option.map _) (if_pos hcnt)

/-! ## What `lmb_add_region` can do -/

/-- Entry `i` is the first one that touches the new region, and `p` is the entry extended by it. -/
structure Extends (rgn : LmbRegion) (base size : BitVec 64) (i : ℕ) (p : LmbProperty) : Prop where
  lt : i < rgn.cnt
  first : ∀ j < i, rgn.stopsAt base size j = false
  entry : ((rgn.region i).base = base + size ∧ p = ⟨base, (rgn.region i).size + size⟩) ∨
    ((rgn.region i).base ≠ base + size ∧ base = (rgn.region i).base + (rgn.region i).size ∧
      p = ⟨(rgn.region i).base, (rgn.region i).size + size⟩)

theorem Extends.stopsAt (he : Extends rgn base size i p) : rgn.stopsAt base size i = true := by
  rw [LmbRegion.stopsAt, decide_eq_true_iff, addrsAdjacent]
  rcases he.entry with ⟨heq, -⟩ | ⟨hne, heq, -⟩
  · exact .inr (by rw [if_pos heq]; decide)
  · exact .inr (by rw [if_neg hne, if_pos heq]; decide)

/-- An entry that leaves a gap to the new region, which is neither at the begin nor at the end of
the address space. -/
theorem stopsAt_of_gap (h0 : 0 < base.toNat) (hb : base.toNat + size.toNat < 2 ^ 64)
    (hgap : (rgn.region i).base.toNat + (rgn.region i).size.toNat ≤ 2 ^ 64 ∧
      ((rgn.region i).base.toNat + (rgn.region i).size.toNat < base.toNat ∨
        base.toNat + size.toNat < (rgn.region i).base.toNat)) : rgn.stopsAt base size i = false := by
  rw [LmbRegion.stopsAt, decide_eq_false_iff_not, addrsAdjacent]
  rintro (heq | hadj)
  · rw [heq] at hgap
    dsimp only at hgap
    omega
  · split_ifs at hadj <;> bv_omega

/-- The possible effects of `lmb_add_region` on a table with at least one region, with the value
returned. -/
inductive AddStep (rgn : LmbRegion) (base size : BitVec 64) : LmbRegion → ℤ → Prop
  | same {i : ℕ} (hi : i < rgn.cnt) (h : rgn.region i = ⟨base, size⟩) : AddStep rgn base size rgn 0
  | extend {i : ℕ} {p : LmbProperty} (h : Extends rgn base size i p)
      (hnext : i + 1 < rgn.cnt → addrsAdjacent p.base p.size (rgn.region (i + 1)).base
        (rgn.region (i + 1)).size = 0) : AddStep rgn base size (rgn.set i p) 1
  | merge {i : ℕ} {p : LmbProperty} {rgn' : LmbRegion} (h : Extends rgn base size i p)
      (hlt : i + 1 < rgn.cnt) (hnext : addrsAdjacent p.base p.size (rgn.region (i + 1)).base
      (rgn.region (i + 1)).size ≠ 0)
      (hcnt : rgn'.cnt = rgn.cnt - 1)
      (hspans : rgn'.spans = rgn.spans.take i ++
        (⟨p.base, p.size + (rgn.region (i + 1)).size⟩ : LmbProperty).span ::
          rgn.spans.drop (i + 2)) : AddStep rgn base size rgn' 2
  | insert (h : rgn.cnt < maxLmbRegions) (hstop : ∀ i < rgn.cnt, rgn.stopsAt base size i = false) :
      AddStep rgn base size (rgn.insertRegion base size h) 0
  | full (h : rgn.cnt = maxLmbRegions) : AddStep rgn base size rgn (-1)

theorem touchesNext_iff (hcnt : 0 < rgn.cnt) :
    rgn.touchesNext i = true ↔ i + 1 < rgn.cnt ∧ rgn.regionsAdjacent i (i + 1) ≠ 0 := by
  have hle := rgn.cnt_le
  unfold maxLmbRegions at hle
  rw [touchesNext, decide_eq_true_iff]
  omega

/-- Extending an entry, and merging it with the next one if they now touch. -/
theorem mergeNext_step (h : Extends rgn base size i p) :
    ∃ rgn' ret, (rgn.set i p).mergeNext i = some (rgn', ret) ∧ AddStep rgn base size rgn' ret := by
  have hlt := h.lt
  have hcnt : 0 < (rgn.set i p).cnt := Nat.zero_lt_of_lt hlt
  have hself : (rgn.set i p).region i = p := by rw [set_region, if_pos rfl]
  have hnext : (rgn.set i p).region (i + 1) = rgn.region (i + 1) := by
    rw [set_region, if_neg (by omega)]
  have hadj : (rgn.set i p).regionsAdjacent i (i + 1) =
      addrsAdjacent p.base p.size (rgn.region (i + 1)).base (rgn.region (i + 1)).size := by
    rw [regionsAdjacent, hself, hnext]
  have hiff := touchesNext_iff (i := i) hcnt
  rw [hadj] at hiff
  rw [mergeNext]
  split
  · next ht =>
    obtain ⟨hi, hne⟩ := hiff.mp ht
    obtain ⟨rgn', hco, hcnt', hspans⟩ := coalesceRegions_spec hi
    refine ⟨rgn', 2, by rw [hco, Option.map_some], .merge h hi hne hcnt' ?_⟩
    rw [hspans, hself, hnext, spans_set, take_set_of_le (le_refl i), drop_set_of_lt (by omega)]
  · next ht =>
    exact ⟨_, 1, rfl, .extend h fun hi => by_contra fun hne => ht (hiff.mpr ⟨hi, hne⟩)⟩

/-- `lmb_add_region` on a table with at least one region that is not the dummy. -/
theorem addRegion_step (hcnt : 0 < rgn.cnt) (hd : ¬ (rgn.cnt = 1 ∧ (rgn.region 0).size = 0))
    (base size : BitVec 64) : ∃ rgn' ret, rgn.addRegion base size = some (rgn', ret) ∧
    AddStep rgn base size rgn' ret := by
  rw [addRegion, if_neg hd]
  cases hfind : (range rgn.cnt).find? (rgn.stopsAt base size) with
  | none =>
    have hstop : ∀ i < rgn.cnt, rgn.stopsAt base size i = false := by
      intro i hi
      have h := find?_eq_none.mp hfind i (mem_range.mpr hi)
      simpa using h
    have hno : ¬ rgn.touchesNext rgn.cnt = true := by
      rw [touchesNext_iff hcnt]
      omega
    simp only [addApart, if_neg hno]
    split
    · next h => exact ⟨_, 0, rfl, .insert h hstop⟩
    · next h => exact ⟨_, -1, rfl, .full (rgn.cnt_le.antisymm (not_lt.mp h))⟩
  | some i =>
    obtain ⟨hstop, hi, hfirst⟩ := find?_range_eq_some.mp hfind
    have hlt : i < rgn.cnt := mem_range.mp hi
    have hfirst' : ∀ j < i, rgn.stopsAt base size j = false := fun j hj => by
      simpa using hfirst j hj
    simp only
    split
    · next hsame => exact ⟨_, 0, rfl, .same hlt hsame⟩
    next hsame =>
    have hadj : addrsAdjacent base size (rgn.region i).base (rgn.region i).size ≠ 0 := by
      rw [stopsAt, decide_eq_true_iff] at hstop
      exact hstop.resolve_left hsame
    unfold addrsAdjacent at hadj ⊢
    by_cases hup : (rgn.region i).base = base + size
    · rw [if_pos hup, if_pos (by decide), hup, BitVec.add_sub_cancel]
      exact mergeNext_step ⟨hlt, hfirst', .inl ⟨hup, rfl⟩⟩
    rw [if_neg hup] at hadj ⊢
    by_cases hdown : base = (rgn.region i).base + (rgn.region i).size
    · rw [if_pos hdown, if_neg (by decide)]
      exact mergeNext_step ⟨hlt, hfirst', .inr ⟨hup, hdown, rfl⟩⟩
    · exact absurd (if_neg hdown) hadj

theorem addStep_of_addRegion (hcnt : 0 < rgn.cnt) (hd : ¬ (rgn.cnt = 1 ∧ (rgn.region 0).size = 0))
    {rgn' : LmbRegion} {ret : ℤ} (h : rgn.addRegion base size = some (rgn', ret)) :
    AddStep rgn base size rgn' ret := by
  obtain ⟨rgn'', ret', hadd, hstep⟩ := addRegion_step hcnt hd base size
  cases h.symm.trans hadd
  exact hstep

end LmbRegion

end UBoot.Memory
