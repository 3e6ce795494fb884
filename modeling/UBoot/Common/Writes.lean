import UBoot.Common.Memory

/-!
# Sequences of writes

A write is an address and a list to be put there. `Exact ws content` says what a sequence of writes
puts into a memory, cell by cell: every write agrees with the content wherever it writes, every
given cell of the content is written, and no other cell is.
-/

namespace UBoot.Common

open List

variable {α : Type*} {ws : List (ℕ × List α)} {content : List (Option α)}

/-- What a write puts at an address. -/
def cellAt (w : ℕ × List α) (i : ℕ) : Option α := if w.1 ≤ i then w.2[i - w.1]? else none

/-- The writes put exactly the given cells of the content, from address 0 on. -/
def Exact (ws : List (ℕ × List α)) (content : List (Option α)) : Prop :=
  ∀ i b, (∃ w ∈ ws, cellAt w i = some b) ↔ content[i]? = some (some b)

theorem exact_nil : Exact ([] : List (ℕ × List α)) [] := by simp [Exact]

variable (h : Exact ws content)
include h

/-- A write right behind the content adds its list to it. -/
theorem Exact.append_write (l : List α) : Exact (ws ++ [(content.length, l)])
    (content ++ l.map some) := by
  intro i b
  have hcell : cellAt (content.length, l) i = some b ↔ content.length ≤ i ∧
    l[i - content.length]? = some b := by
    simp [cellAt]
  simp only [mem_append, mem_singleton, or_and_right, exists_or, exists_eq_left]
  rw [h i b, hcell]
  rcases Nat.lt_or_ge i content.length with hi | hi
  · rw [getElem?_append_left hi]
    constructor
    · rintro (hc | hc)
      · exact hc
      · omega
    · exact .inl
  · rw [getElem?_append_right hi]
    simp [hi]

/-- Cells that are not given need no write. -/
theorem Exact.append_none (n : ℕ) : Exact ws (content ++ replicate n none) := by
  intro i b
  rw [h i b]
  rcases Nat.lt_or_ge i content.length with hi | hi
  · rw [getElem?_append_left hi]
  · rw [getElem?_append_right hi, getElem?_eq_none hi, getElem?_replicate]
    split <;> simp

/-- Writes of empty lists change nothing. -/
theorem Exact.append_empty {ws' : List (ℕ × List α)} (hws' : ∀ w ∈ ws', w.2 = []) :
    Exact (ws ++ ws') content := by
  intro i b
  rw [← h i b]
  constructor
  · rintro ⟨w, hw, hcell⟩
    rcases mem_append.mp hw with hw | hw
    · exact ⟨w, hw, hcell⟩
    · rw [cellAt, hws' w hw] at hcell
      simp at hcell
  · rintro ⟨w, hw, hcell⟩
    exact ⟨w, mem_append_left _ hw, hcell⟩

omit h

/-- The memory after a sequence of writes. -/
def applyWrites (mem : ℕ → α) (ws : List (ℕ × List α)) : ℕ → α :=
  ws.foldl (fun m w => store m w.1 w.2) mem

variable (mem : ℕ → α)

theorem store_eq_cellAt (w : ℕ × List α) (i : ℕ) :
    store mem w.1 w.2 i = (cellAt w i).getD (mem i) := by
  rw [store, cellAt]
  split
  · rw [getD_eq_getElem?_getD]
  · rfl

variable {i : ℕ} {b : α}

/-- A cell that is the same in the memory and in all writes to it is the same afterwards. -/
theorem applyWrites_eq_of_agree (ws : List (ℕ × List α))
    (hagree : ∀ w ∈ ws, ∀ b', cellAt w i = some b' → b' = b)
    (hb : mem i = b ∨ ∃ w ∈ ws, cellAt w i = some b) : applyWrites mem ws i = b := by
  induction ws generalizing mem with
  | nil =>
    rcases hb with hb | ⟨w, hw, _⟩
    · exact hb
    · cases hw
  | cons w ws ih =>
    refine ih (store mem w.1 w.2) (forall_mem_cons.mp hagree).2 ?_
    rw [store_eq_cellAt]
    cases hc : cellAt w i with
    | some b' => exact .inl (hagree w mem_cons_self b' hc)
    | none =>
      refine hb.imp id ?_
      rintro ⟨w', hw', hc'⟩
      rcases mem_cons.mp hw' with rfl | hw'
      · rw [hc] at hc'
        cases hc'
      · exact ⟨w', hw', hc'⟩

/-- After exact writes the memory holds the given cells. -/
theorem Exact.applyWrites_eq (h : Exact ws content) (mem : ℕ → α)
    (hi : content[i]? = some (some b)) : applyWrites mem ws i = b := by
  refine applyWrites_eq_of_agree mem ws (fun w hw b' hc => ?_) (.inr ((h i b).mpr hi))
  have hb' := (h i b').mp ⟨w, hw, hc⟩
  rw [hi] at hb'
  simpa using hb'.symm

/-- A cell that no write covers keeps its value. -/
theorem applyWrites_of_uncovered (h : ∀ w ∈ ws, cellAt w i = none) : applyWrites mem ws i = mem i :=
  applyWrites_eq_of_agree mem ws (fun w hw b hc => by rw [h w hw] at hc; cases hc) (.inl rfl)

/-- Exact writes leave all other cells alone. -/
theorem Exact.applyWrites_of_not_given (h : Exact ws content) (mem : ℕ → α)
    (hi : ∀ b, content[i]? ≠ some (some b)) : applyWrites mem ws i = mem i :=
  applyWrites_eq_of_agree mem ws (fun w hw b' hc => absurd ((h i b').mp ⟨w, hw, hc⟩) (hi b')) (.inl rfl)

end UBoot.Common
