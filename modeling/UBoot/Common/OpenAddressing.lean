import Mathlib.Data.Finset.Card
import Mathlib.Data.Set.Card
import Mathlib.Logic.Function.Basic

/-!
# Open addressing with tombstones

A table of cells indexed by slot numbers, and for every key an order in which its slots are probed.
`Represents T m` relates a table to the finite map it stores: a key lives in at most one slot, and
no cell ahead of it in its own probe order is empty. The lemmas say which cell updates keep that
relation and what they do to the map and to the number of live cells.
-/

namespace UBoot.Common

open Function

/-- The content of one slot. A `deleted` cell is a tombstone: probing goes on behind it. -/
inductive Cell (K V : Type*) where
  | empty
  | deleted
  | live (key : K) (value : V)

/-- The cell holds an entry. -/
def Cell.isLive {K V : Type*} : Cell K V → Bool
  | .live _ _ => true
  | _ => false

/-- Probe orders: `seq k` lists the `n` slots in the order in which they are tried for `k`. -/
structure ProbeOrder (K : Type*) where
  n : ℕ
  slots : Finset ℕ
  seq : K → ℕ → ℕ
  seq_mem : ∀ k j, j < n → seq k j ∈ slots
  seq_inj : ∀ k j l, j < n → l < n → seq k j = seq k l → j = l
  seq_surj : ∀ k, ∀ i ∈ slots, ∃ j < n, seq k j = i

namespace ProbeOrder

variable {K V : Type*} (P : ProbeOrder K)

/-- The table `T` stores the finite map `m`. -/
structure Represents (T : ℕ → Cell K V) (m : K → Option V) : Prop where
  agrees : ∀ k v, m k = some v ↔ ∃ i ∈ P.slots, T i = .live k v
  unique : ∀ k v v' i i', i ∈ P.slots → i' ∈ P.slots → T i = .live k v → T i' = .live k v' → i = i'
  reach : ∀ k v j, j < P.n → T (P.seq k j) = .live k v → ∀ l < j, T (P.seq k l) ≠ .empty

/-- Slot `s` is free, and a probe for `k` gets to it. -/
structure Vacant (T : ℕ → Cell K V) (k : K) (s : ℕ) : Prop where
  mem : s ∈ P.slots
  free : (T s).isLive = false
  reach : ∀ j < P.n, P.seq k j = s → ∀ l < j, T (P.seq k l) ≠ .empty

/-- The number of live cells. -/
def liveCount (T : ℕ → Cell K V) : ℕ := (P.slots.filter fun i => (T i).isLive).card

variable {P} {T : ℕ → Cell K V} {m : K → Option V}

/-- A table without live cells stores the empty map. -/
theorem represents_empty (h : ∀ i ∈ P.slots, T i = .empty) : P.Represents T (fun _ => none) where
  agrees k v := by
    constructor
    · intro h0
      cases h0
    · rintro ⟨i, hi, hlive⟩
      rw [h i hi] at hlive
      cases hlive
  unique k v v' i i' hi _ hlive _ := by
    rw [h i hi] at hlive
    cases hlive
  reach k v j hj hlive l hl := by
    rw [h _ (P.seq_mem k j hj)] at hlive
    cases hlive

variable {i : ℕ} {k : K}

namespace Represents

section

variable (hr : P.Represents T m)

include hr

theorem get_of_live (hi : i ∈ P.slots) {v : V} (h : T i = .live k v) : m k = some v :=
  (hr.agrees k v).mpr ⟨i, hi, h⟩

/-- A probe of all slots without meeting the key shows that the key is absent. -/
theorem absent_of_miss (hmiss : ∀ l < P.n, ∀ v, T (P.seq k l) ≠ .live k v) : m k = none := by
  by_contra hne
  obtain ⟨v, hv⟩ := Option.ne_none_iff_exists'.mp hne
  obtain ⟨i, hi, hlive⟩ := (hr.agrees k v).mp hv
  obtain ⟨l, hl, rfl⟩ := P.seq_surj k i hi
  exact hmiss l hl v hlive

/-- A probe that reaches an empty cell without meeting the key shows that the key is absent. -/
theorem absent_of_empty {j : ℕ} (hj : j < P.n)
    (hempty : T (P.seq k j) = .empty) (hmiss : ∀ l < j, ∀ v, T (P.seq k l) ≠ .live k v) :
    m k = none := by
  refine hr.absent_of_miss fun l hl v hlive => ?_
  rcases lt_trichotomy l j with hlj | rfl | hlj
  · exact hmiss l hlj v hlive
  · rw [hempty] at hlive
    cases hlive
  · exact hr.reach k v l hl hlive j hlj hempty

variable [DecidableEq K]

/-- Putting an absent key into a free cell that its probe order reaches extends the map. -/
theorem insert {s : ℕ} (hk : m k = none) (hv : P.Vacant T k s) (v : V) :
    P.Represents (update T (s) (.live k v)) (update m k (some v)) := by
  have hold : ∀ {k' v' i}, i ∈ P.slots → T i = .live k' v' → k' ≠ k ∧ i ≠ s := by
    intro k' v' i hi hlive
    refine ⟨?_, ?_⟩
    · rintro rfl
      rw [hr.get_of_live hi hlive] at hk
      cases hk
    · rintro rfl
      have hfree := hv.free
      rw [hlive] at hfree
      cases hfree
  refine ⟨?_, ?_, ?_⟩
  · intro k' v'
    by_cases hkk : k' = k
    · subst hkk
      rw [update_self, Option.some_inj]
      constructor
      · rintro rfl
        exact ⟨s, hv.mem, update_self ..⟩
      · rintro ⟨i, hi, hlive⟩
        by_cases hij : i = s
        · rw [hij, update_self] at hlive
          injection hlive
        · rw [update_of_ne hij] at hlive
          exact absurd rfl (hold hi hlive).1
    · rw [update_of_ne hkk, hr.agrees]
      constructor
      · rintro ⟨i, hi, hlive⟩
        exact ⟨i, hi, by rw [update_of_ne (hold hi hlive).2, hlive]⟩
      · rintro ⟨i, hi, hlive⟩
        by_cases hij : i = s
        · rw [hij, update_self] at hlive
          injection hlive with h1 _
          exact absurd h1.symm hkk
        · rw [update_of_ne hij] at hlive
          exact ⟨i, hi, hlive⟩
  · intro k' v₁ v₂ i i' hi hi' h h'
    by_cases hij : i = s
    · by_cases hij' : i' = s
      · rw [hij, hij']
      · rw [hij, update_self] at h
        rw [update_of_ne hij'] at h'
        injection h with h1 _
        exact absurd h1.symm (hold hi' h').1
    · rw [update_of_ne hij] at h
      by_cases hij' : i' = s
      · rw [hij', update_self] at h'
        injection h' with h1 _
        exact absurd h1.symm (hold hi h).1
      · rw [update_of_ne hij'] at h'
        exact hr.unique k' v₁ v₂ i i' hi hi' h h'
  · intro k' v' j' hj' hlive l hl
    by_cases hslot : P.seq k' l = s
    · rw [hslot]
      simp
    rw [update_of_ne hslot]
    by_cases hij : P.seq k' j' = s
    · rw [hij, update_self] at hlive
      injection hlive with h1 _
      subst h1
      exact hv.reach j' hj' hij l hl
    · rw [update_of_ne hij] at hlive
      exact hr.reach k' v' j' hj' hlive l hl

/-- Turning a live cell into a tombstone removes its key from the map. -/
theorem delete (hi : i ∈ P.slots) {v₀ : V} (hlive : T i = .live k v₀) :
    P.Represents (update T i .deleted) (update m k none) := by
  have hkey : ∀ {i' k' v'}, update T i .deleted i' = .live k' v' → i' ≠ i ∧ T i' = .live k' v' := by
    intro i' k' v' h
    by_cases hii : i' = i
    · subst hii
      exact absurd h (by simp)
    · rw [update_of_ne hii] at h
      exact ⟨hii, h⟩
  refine ⟨?_, ?_, ?_⟩
  · intro k' v'
    by_cases hkk : k' = k
    · subst hkk
      constructor
      · intro h
        exact absurd h (by simp)
      · rintro ⟨i', hi', h⟩
        obtain ⟨hii, h'⟩ := hkey h
        exact absurd (hr.unique k' v' v₀ i' i hi' hi h' hlive) hii
    · rw [update_of_ne hkk, hr.agrees]
      constructor
      · rintro ⟨i', hi', h⟩
        have hii : i' ≠ i := by
          rintro rfl
          rw [hlive] at h
          injection h with h1 _
          exact hkk h1.symm
        exact ⟨i', hi', by rw [update_of_ne hii, h]⟩
      · rintro ⟨i', hi', h⟩
        exact ⟨i', hi', (hkey h).2⟩
  · intro k' v₁ v₂ i₁ i₂ hi₁ hi₂ h₁ h₂
    exact hr.unique k' _ _ i₁ i₂ hi₁ hi₂ (hkey h₁).2 (hkey h₂).2
  · intro k' v' j hj h l hl
    by_cases hslot : P.seq k' l = i
    · rw [hslot]
      simp
    · rw [update_of_ne hslot]
      exact hr.reach k' v' j hj (hkey h).2 l hl

/-- Overwriting the value of a live cell updates the map at its key. -/
theorem replace (hi : i ∈ P.slots) {v₀ : V} (hlive : T i = .live k v₀) (v : V) :
    P.Represents (update T i (.live k v)) (update m k (some v)) := by
  -- the old entry is deleted, and the new one finds its cell free
  have hdel := hr.delete hi hlive
  have hv : P.Vacant (update T i .deleted) k i := by
    refine ⟨hi, by rw [update_self]; rfl, ?_⟩
    rintro j hj rfl l hl
    by_cases hslot : P.seq k l = P.seq k j
    · rw [hslot]
      simp
    · rw [update_of_ne hslot]
      exact hr.reach k v₀ j hj hlive l hl
  have hins := hdel.insert (update_self ..) hv v
  rwa [update_idem, update_idem] at hins

omit [DecidableEq K] in
/-- The number of keys of the map is the number of live cells. -/
theorem ncard_keys : {k | m k ≠ none}.ncard = P.liveCount T := by
  classical
  let keyOf : (i : ℕ) → i ∈ P.slots.filter (fun i => (T i).isLive) → K := fun i hi =>
    match T i, (Finset.mem_filter.mp hi).2 with
    | .live k _, _ => k
  have hkeyOf : ∀ i hi, ∃ v, T i = .live (keyOf i hi) v := by
    intro i hi
    simp only [keyOf]
    split
    next k v _ heq _ => exact ⟨v, heq⟩
  rw [liveCount, ← Set.ncard_coe_finset]
  symm
  apply Set.ncard_congr (fun i hi => keyOf i hi)
  · intro i hi
    obtain ⟨v, hv⟩ := hkeyOf i hi
    show m (keyOf i hi) ≠ none
    rw [hr.get_of_live (Finset.mem_filter.mp hi).1 hv]
    simp
  · intro i i' hi hi' heq
    obtain ⟨v, hv⟩ := hkeyOf i hi
    obtain ⟨v', hv'⟩ := hkeyOf i' hi'
    rw [← heq] at hv'
    exact hr.unique _ v v' i i' (Finset.mem_filter.mp hi).1 (Finset.mem_filter.mp hi').1 hv hv'
  · intro k hk
    obtain ⟨v, hv⟩ := Option.ne_none_iff_exists'.mp hk
    obtain ⟨i, hi, hlive⟩ := (hr.agrees k v).mp hv
    have hmem : i ∈ P.slots.filter (fun i => (T i).isLive) :=
      Finset.mem_filter.mpr ⟨hi, by rw [hlive]; rfl⟩
    refine ⟨i, hmem, ?_⟩
    obtain ⟨v', hv'⟩ := hkeyOf i hmem
    rw [hlive] at hv'
    injection hv' with h1 _
    exact h1.symm

end

end Represents

/-! ## How the number of live cells changes -/

variable (hi : i ∈ P.slots)
include hi

/-- Filling a free cell adds one live cell. -/
theorem liveCount_insert (hfree : (T i).isLive = false) (k : K) (v : V) :
    P.liveCount (update T i (.live k v)) = P.liveCount T + 1 := by
  have hset : P.slots.filter (fun l => (update T i (.live k v) l).isLive)
      = insert i (P.slots.filter fun l => (T l).isLive) := by
    ext l
    rw [Finset.mem_filter]
    by_cases hl : l = i
    · subst hl
      simp [hi, Cell.isLive]
    · simp [hl]
  rw [liveCount, hset, Finset.card_insert_of_notMem (by simp [hfree]), liveCount]

/-- Burying a live cell removes one live cell. -/
theorem liveCount_delete {v₀ : V} (hlive : T i = .live k v₀) :
    P.liveCount (update T i .deleted) + 1 = P.liveCount T := by
  have hset : P.slots.filter (fun l => (update T i .deleted l).isLive)
      = (P.slots.filter fun l => (T l).isLive).erase i := by
    ext l
    rw [Finset.mem_filter]
    by_cases hl : l = i
    · subst hl
      simp [Cell.isLive]
    · simp [hl]
  have hmem : i ∈ P.slots.filter fun l => (T l).isLive := Finset.mem_filter.mpr ⟨hi, by rw [hlive]; rfl⟩
  rw [liveCount, hset, liveCount, Finset.card_erase_add_one hmem]

/-- Overwriting a live cell keeps the count. -/
theorem liveCount_replace {v₀ : V} (hlive : T i = .live k v₀) (v : V) :
    P.liveCount (update T i (.live k v)) = P.liveCount T := by
  rw [← liveCount_delete hi hlive, ← liveCount_insert hi (by rw [update_self]; rfl) k v, update_idem]

end ProbeOrder

end UBoot.Common
