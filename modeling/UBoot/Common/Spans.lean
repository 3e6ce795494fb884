import Mathlib.Data.Nat.Basic
import Mathlib.Data.List.Pairwise
import Mathlib.Order.Lattice

/-!
# Lists of separated spans

A set of addresses kept as a list of half-open spans, in increasing order and with a gap between any
two neighbours. Removing, replacing or adding one span of such a list is described by what it does
to the set that is covered.
-/

namespace UBoot.Common

open List

variable {α : Type*}

/-- The half-open interval from `lo` to `hi`. -/
structure Span (α : Type*) where
  lo : α
  hi : α

variable [LinearOrder α]

instance : Membership α (Span α) := ⟨fun r a => r.lo ≤ a ∧ a < r.hi⟩

theorem Span.mem_def {r : Span α} {a : α} : a ∈ r ↔ r.lo ≤ a ∧ a < r.hi := Iff.rfl

/-- Some span of the list contains the address. -/
def Covers (l : List (Span α)) (a : α) : Prop := ∃ r ∈ l, a ∈ r

/-- No span is empty, and each ends strictly before the next begins. -/
structure Separated (l : List (Span α)) : Prop where
  nonempty : ∀ r ∈ l, r.lo < r.hi
  gaps : l.Pairwise fun r q => r.hi < q.lo

variable {l l₁ l₂ : List (Span α)} {r q : Span α} {a : α}

theorem covers_append_cons : Covers (l₁ ++ r :: l₂) a ↔ a ∈ r ∨ Covers (l₁ ++ l₂) a := by
  simp only [Covers, mem_append, mem_cons]
  constructor
  · rintro ⟨q, hq | rfl | hq, ha⟩
    · exact .inr ⟨q, .inl hq, ha⟩
    · exact .inl ha
    · exact .inr ⟨q, .inr hq, ha⟩
  · rintro (ha | ⟨q, hq | hq, ha⟩)
    · exact ⟨r, .inr (.inl rfl), ha⟩
    · exact ⟨q, .inl hq, ha⟩
    · exact ⟨q, .inr (.inr hq), ha⟩

theorem covers_append : Covers (l₁ ++ l₂) a ↔ Covers l₁ a ∨ Covers l₂ a := by
  simp only [Covers, mem_append, or_and_right, exists_or]

theorem Separated.sublist (h : Separated l) (hl : l₁.Sublist l) : Separated l₁ :=
  ⟨fun r hr => h.nonempty r (hl.mem hr), h.gaps.sublist hl⟩

/-- A span fits into a separated list between the spans that end before it and those that begin
behind it. -/
theorem separated_append_cons :
    Separated (l₁ ++ r :: l₂) ↔ Separated (l₁ ++ l₂) ∧ r.lo < r.hi ∧
      (∀ q ∈ l₁, q.hi < r.lo) ∧ ∀ q ∈ l₂, r.hi < q.lo := by
  constructor
  · rintro ⟨hne, hgaps⟩
    have hp := pairwise_append.mp hgaps
    have hc := pairwise_cons.mp hp.2.1
    refine ⟨⟨fun q hq => hne q ?_, pairwise_append.mpr ⟨hp.1, hc.2, fun q hq p hp' => ?_⟩⟩,
      hne r (by simp), fun q hq => hp.2.2 q hq r (by simp), hc.1⟩
    · rcases mem_append.mp hq with hq | hq <;> simp [hq]
    · exact hp.2.2 q hq p (mem_cons_of_mem r hp')
  · rintro ⟨⟨hne, hgaps⟩, hr, hbefore, hafter⟩
    have hp := pairwise_append.mp hgaps
    refine ⟨fun q hq => ?_, pairwise_append.mpr
      ⟨hp.1, pairwise_cons.mpr ⟨hafter, hp.2.1⟩, fun q hq p hp' => ?_⟩⟩
    · rcases mem_append.mp hq with hq | hq
      · exact hne q (mem_append_left l₂ hq)
      · rcases mem_cons.mp hq with rfl | hq
        · exact hr
        · exact hne q (mem_append_right l₁ hq)
    · rcases mem_cons.mp hp' with rfl | hp'
      · exact hbefore q hq
      · exact hp.2.2 q hq p hp'

/-- Spans of a separated list do not overlap. -/
theorem Separated.not_covers (h : Separated (l₁ ++ r :: l₂)) (ha : a ∈ r) :
    ¬ Covers (l₁ ++ l₂) a := by
  obtain ⟨-, -, hbefore, hafter⟩ := separated_append_cons.mp h
  rintro ⟨q, hq, hmem⟩
  rcases mem_append.mp hq with hq | hq
  · exact absurd ((hmem.2.trans (hbefore q hq)).trans_le ha.1) (lt_irrefl a)
  · exact absurd ((ha.2.trans (hafter q hq)).trans_le hmem.1) (lt_irrefl a)

/-- Taking one span out of the list takes its addresses out of the set. -/
theorem Separated.covers_remove (h : Separated (l₁ ++ r :: l₂)) :
    Covers (l₁ ++ l₂) a ↔ Covers (l₁ ++ r :: l₂) a ∧ a ∉ r := by
  rw [covers_append_cons]
  constructor
  · exact fun hc => ⟨.inr hc, fun ha => h.not_covers ha hc⟩
  · rintro ⟨ha | hc, hn⟩
    · exact absurd ha hn
    · exact hc

/-- Two spans of a separated list are equal or have a gap between them. -/
theorem Separated.eq_or_gap (h : Separated l) (hr : r ∈ l) (hq : q ∈ l) :
    r = q ∨ r.hi < q.lo ∨ q.hi < r.lo := by
  by_cases heq : r = q
  · exact .inl heq
  obtain ⟨l₁, l₂, rfl⟩ := append_of_mem hr
  obtain ⟨-, -, hbefore, hafter⟩ := separated_append_cons.mp h
  rcases mem_append.mp hq with hq | hq
  · exact .inr (.inr (hbefore q hq))
  · rcases mem_cons.mp hq with rfl | hq
    · exact absurd rfl heq
    · exact .inr (.inl (hafter q hq))

/-- An interval that is covered lies in a single span: the end of a span is not covered. -/
theorem Separated.exists_span (h : Separated l) (hq : q.lo < q.hi) (hc : ∀ a ∈ q, Covers l a) :
    ∃ r ∈ l, r.lo ≤ q.lo ∧ q.hi ≤ r.hi := by
  obtain ⟨r, hr, hlo⟩ := hc q.lo ⟨le_rfl, hq⟩
  refine ⟨r, hr, hlo.1, not_lt.mp fun hlt => ?_⟩
  -- the first address behind `r` would have to be in another span
  obtain ⟨p, hp, hend⟩ := hc r.hi ⟨hlo.2.le, hlt⟩
  rcases h.eq_or_gap hr hp with rfl | hgap | hgap
  · exact lt_irrefl _ hend.2
  · exact absurd (hgap.trans_le hend.1) (lt_irrefl _)
  · exact absurd ((hend.2.trans hgap).trans (h.nonempty r hr)) (lt_irrefl _)

/-! ### Taking one number out of a span -/

/-- What is left of a span of numbers when one of them is taken out. -/
def Span.without (r : Span ℕ) (j : ℕ) : List (Span ℕ) :=
  (if r.lo < j then [⟨r.lo, j⟩] else []) ++ if j + 1 < r.hi then [⟨j + 1, r.hi⟩] else []

theorem Span.mem_without {r q : Span ℕ} {j : ℕ} :
    q ∈ r.without j ↔ (r.lo < j ∧ q = ⟨r.lo, j⟩) ∨ (j + 1 < r.hi ∧ q = ⟨j + 1, r.hi⟩) := by
  simp [Span.without]

theorem Span.covers_without {r : Span ℕ} {i j : ℕ} (hlo : r.lo ≤ j) (hhi : j ≤ r.hi) :
    Covers (r.without j) i ↔ i ∈ r ∧ i ≠ j := by
  simp only [Covers, Span.mem_without, or_and_right, exists_or, and_assoc, exists_and_left,
    exists_eq_left, Span.mem_def]
  omega

/-- Taking a number out of one span takes it out of the set. -/
theorem Separated.covers_without {l₁ l₂ : List (Span ℕ)} {r : Span ℕ} {i j : ℕ}
    (h : Separated (l₁ ++ r :: l₂)) (hlo : r.lo ≤ j) (hhi : j ≤ r.hi) :
    Covers (l₁ ++ (r.without j ++ l₂)) i ↔ Covers (l₁ ++ r :: l₂) i ∧ i ≠ j := by
  obtain ⟨-, -, hbefore, hafter⟩ := separated_append_cons.mp h
  have hrest : Covers (l₁ ++ l₂) i → i ≠ j := by
    rintro ⟨q, hq, hi⟩ rfl
    rcases mem_append.mp hq with hq | hq
    · exact absurd (hi.2.trans ((hbefore q hq).trans_le hlo)) (lt_irrefl i)
    · exact absurd ((hhi.trans_lt (hafter q hq)).trans_le hi.1) (lt_irrefl i)
  have hmid := Span.covers_without (i := i) hlo hhi
  rw [covers_append_cons, covers_append, covers_append, hmid, or_left_comm, ← covers_append, or_and_right]
  exact or_congr Iff.rfl ⟨fun hc => ⟨hc, hrest hc⟩, And.left⟩

/-- Taking a number out of one of its spans leaves the list separated. -/
theorem Separated.without {l₁ l₂ : List (Span ℕ)} {r : Span ℕ} {j : ℕ}
    (h : Separated (l₁ ++ r :: l₂))
    (hlo : r.lo ≤ j) (hhi : j ≤ r.hi) : Separated (l₁ ++ (r.without j ++ l₂)) := by
  obtain ⟨hrest, -, hbefore, hafter⟩ := separated_append_cons.mp h
  have hright : Separated (l₁ ++ ((if j + 1 < r.hi then [⟨j + 1, r.hi⟩] else []) ++ l₂)) := by
    split
    · rename_i hlt
      refine separated_append_cons.mpr ⟨hrest, hlt, fun q hq => ?_, hafter⟩
      exact (hbefore q hq).trans_le (Nat.le_succ_of_le hlo)
    · exact hrest
  rw [Span.without]
  by_cases hlt : r.lo < j
  · rw [if_pos hlt]
    refine separated_append_cons.mpr ⟨hright, hlt, hbefore, fun q hq => ?_⟩
    rcases mem_append.mp hq with hq | hq
    · obtain ⟨-, hq⟩ := mem_ite_nil_right.mp hq
      rw [mem_singleton.mp hq]
      exact Nat.lt_succ_self j
    · exact hhi.trans_lt (hafter q hq)
  · rw [if_neg hlt]
    exact hright

end UBoot.Common
