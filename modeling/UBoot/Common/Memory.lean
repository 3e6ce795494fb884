import Mathlib.Algebra.Group.Nat.Defs
import Mathlib.Data.List.Basic

/-!
# Lists in memory

A memory is a function from addresses to cells. `Contains mem a l` says that the cells from address
`a` on hold the list `l`; nothing is said about the cells around it.
-/

namespace UBoot.Common

open List Function

variable {α : Type*} {mem : ℕ → α} {a : ℕ}

theorem exists_ofFin (c : UInt8) : ∃ n : Fin 256, UInt8.ofFin n = c := ⟨c.toFin, rfl⟩

/-- The cells from `a` on hold the list. -/
def Contains (mem : ℕ → α) : ℕ → List α → Prop
  | _, [] => True
  | a, c :: l => mem a = c ∧ Contains mem (a + 1) l

variable {l : List α} {mem' : ℕ → α} {n : ℕ}

theorem contains_append {l' : List α} :
    Contains mem a (l ++ l') ↔ Contains mem a l ∧ Contains mem (a + l.length) l' := by
  induction l generalizing a with
  | nil => simp [Contains]
  | cons c l ih =>
    rw [cons_append, Contains, Contains, ih, length_cons, and_assoc,
      show a + 1 + l.length = a + (l.length + 1) by omega]

theorem contains_iff : Contains mem a l ↔ ∀ i (hi : i < l.length), mem (a + i) = l[i] := by
  induction l generalizing a with
  | nil => simp [Contains]
  | cons c l ih =>
    rw [Contains, ih]
    constructor
    · rintro ⟨hc, hl⟩ i hi
      cases i with
      | zero => exact hc
      | succ i =>
        rw [show a + (i + 1) = a + 1 + i by omega]
        exact hl i (by simpa using hi)
    · intro h
      refine ⟨h 0 (by simp), fun i hi => ?_⟩
      rw [show a + 1 + i = a + (i + 1) by omega]
      exact h (i + 1) (by simpa using hi)

/-- Only the cells of the list matter. -/
theorem Contains.congr (h : Contains mem a l)
    (heq : ∀ i, a ≤ i → i < a + l.length → mem' i = mem i) : Contains mem' a l := by
  rw [contains_iff] at h ⊢
  intro i hi
  rw [heq (a + i) (by omega) (by omega)]
  exact h i hi

/-- The `n` cells from `a` on. -/
def load (mem : ℕ → α) (a n : ℕ) : List α := (List.range n).map fun i => mem (a + i)

@[simp] theorem length_load (mem : ℕ → α) (a n : ℕ) : (load mem a n).length = n := by simp [load]

theorem load_getD_zero (hn : 0 < n) (d : α) : (load mem a n).getD 0 d = mem a := by
  obtain _ | m := n
  · omega
  simp [load]

theorem load_append (mem : ℕ → α) (a m n : ℕ) : load mem a m ++ load mem (a + m) n = load mem a
    (m + n) := by
  rw [load, load, load, range_add, map_append, map_map]
  refine congrArg _ (map_congr_left fun i _ => ?_)
  rw [comp_apply, add_assoc]

theorem drop_load (mem : ℕ → α) (a m n : ℕ) : (load mem a n).drop m = load mem (a + m) (n - m) :=
  ext_getElem (by simp) fun i _ _ => by simp [load, add_assoc]

theorem take_load (mem : ℕ → α) (a m n : ℕ) : (load mem a n).take m = load mem a (min m n) := by
  rw [load, load, ← map_take, take_range]

theorem Contains.load_eq (h : Contains mem a l) : load mem a l.length = l := by
  refine ext_getElem (by simp) fun i h₁ h₂ => ?_
  simpa [load] using contains_iff.mp h i h₂

theorem Contains.load_drop (h : Contains mem a l) (n : ℕ) :
    load mem (a + n) (l.length - n) = l.drop n := by
  rw [← drop_load, h.load_eq]

/-- Write a list from `a` on. -/
def store (mem : ℕ → α) (a : ℕ) (l : List α) (i : ℕ) : α :=
  if a ≤ i then l.getD (i - a) (mem i) else mem i

section

variable (mem)

theorem contains_store (a : ℕ) (l : List α) : Contains (store mem a l) a l := by
  rw [contains_iff]
  intro i hi
  simp [store, getElem?_eq_getElem hi]

theorem store_of_outside (a : ℕ) (l : List α) {i : ℕ} (h : i < a ∨ a + l.length ≤ i) :
    store mem a l i = mem i := by
  rw [store]
  split
  · simp [getElem?_eq_none (show l.length ≤ i - a by omega)]
  · rfl

@[simp] theorem store_nil (a : ℕ) : store mem a [] = mem := by
  funext i
  exact store_of_outside mem a [] (by rw [length_nil]; omega)

theorem store_singleton (a : ℕ) (c : α) : store mem a [c] = update mem a c := by
  funext i
  rcases Nat.lt_trichotomy i a with hi | rfl | hi
  · rw [store_of_outside _ _ _ (.inl hi), update_of_ne (by omega)]
  · simp [store]
  · rw [store_of_outside _ _ _ (.inr (by rw [length_singleton]; omega)), update_of_ne (by omega)]

/-- A list written right behind another one. -/
theorem store_append (a : ℕ) (l l' : List α) : store mem a (l ++ l') = store (store mem a l)
    (a + l.length) l' := by
  funext i
  rcases Nat.lt_or_ge i (a + l.length) with hi | hi
  · rw [store_of_outside (store mem a l) _ _ (.inl hi), store, store]
    split
    · simp [getElem?_append_left (show i - a < l.length by omega)]
    · rfl
  · rw [store, store, if_pos (by omega), if_pos hi, store_of_outside mem a l (.inr hi)]
    simp [getElem?_append_right (show l.length ≤ i - a by omega), Nat.sub_sub]

theorem store_cons (a : ℕ) (c : α) (l : List α) : store mem a (c :: l) = store
    (update mem a c) (a + 1) l := by
  rw [← store_singleton]
  exact store_append mem a [c] l

/-- A byte of a copied range. -/
theorem store_load_add (mem' : ℕ → α) (a : ℕ) {b i : ℕ} (hi : i < n) :
    store mem a (load mem' b n) (a + i) = mem' (b + i) := by
  rw [store]
  simp [load, getElem?_range hi]

/-- Writing back what is there changes nothing. -/
theorem store_load (a n : ℕ) : store mem a (load mem a n) = mem := by
  funext i
  by_cases hi : a ≤ i ∧ i < a + n
  · obtain ⟨j, rfl⟩ := Nat.exists_eq_add_of_le hi.1
    exact store_load_add mem mem a (by omega)
  · exact store_of_outside _ _ _ (by rw [length_load]; omega)

end

theorem load_congr {b : ℕ} (h : ∀ j < n, mem (a + j) = mem' (b + j)) :
    load mem a n = load mem' b n :=
  map_congr_left fun j hj => h j (mem_range.mp hj)

/-- The memory that holds a list at address 0 and a default cell everywhere else. -/
def ofList (l : List α) (d : α) (a : ℕ) : α := l.getD a d

theorem contains_ofList (l : List α) (d : α) : Contains (ofList l d) 0 l := by
  have hgen : ∀ pre suf, l = pre ++ suf → Contains (ofList l d) pre.length suf := by
    intro pre suf
    induction suf generalizing pre with
    | nil => intro _; trivial
    | cons c suf ih =>
      intro hl
      have hnext := ih (pre ++ [c]) (by simp [hl])
      rw [length_append] at hnext
      refine ⟨?_, hnext⟩
      simp [ofList, hl]
  exact hgen [] l rfl

end UBoot.Common
