import Mathlib.Data.List.Basic

/-!
# Escaped text

A character `esc` put in front of every special one keeps a text from being cut at its separators.
`scanEscaped` reads up to the first character that stops it and takes the character behind an `esc`
as it is; an `esc` in front of the terminator `nul` stands for itself. Reading past the end of the
list is `none`.
-/

namespace UBoot.Common

open List

variable {α : Type*}

/-- Put `esc` in front of every special character. -/
def escape (esc : α) (special : α → Prop) [DecidablePred special] (l : List α) : List α :=
  l.flatMap fun c => if special c then [esc, c] else [c]

/-- Read an escaped text up to a character that stops it, which is left in the rest. -/
def scanEscaped [DecidableEq α] (esc nul : α) (stop : α → Prop) [DecidablePred stop] :
    List α → Option (List α × List α)
  | [] => none
  | [c] => if stop c then some ([], [c]) else none
  | c :: d :: rest =>
    if stop c then some ([], c :: d :: rest)
    else if c = esc ∧ d ≠ nul then (scanEscaped esc nul stop rest).map fun p => (d :: p.1, p.2)
    else (scanEscaped esc nul stop (d :: rest)).map fun p => (c :: p.1, p.2)

variable {l : List α}

section Escape

variable {esc : α} {special : α → Prop} [DecidablePred special]

@[simp] theorem escape_nil : escape esc special [] = [] := rfl

theorem escape_cons (c : α) (l : List α) :
    escape esc special (c :: l) = (if special c then [esc, c] else [c]) ++ escape esc special l :=
  flatMap_cons

/-- Escaping adds one character for each special one. -/
theorem length_escape (l : List α) : (escape esc special l).length = l.length + l.countP
    (fun c => special c) := by
  induction l with
  | nil => rfl
  | cons c l ih =>
    rw [escape_cons]
    by_cases hc : special c
    · simp [hc]
      omega
    · simp [hc]
      omega

/-- The first character of an escaped text does not stop the reader. -/
theorem head_escape (esc : α) (special : α → Prop) [DecidablePred special] (hl : l ≠ []) :
    ∃ d rest, escape esc special l = d :: rest ∧ (d = esc ∨ d ∈ l ∧ ¬ special d) := by
  obtain ⟨c, l, rfl⟩ := exists_cons_of_ne_nil hl
  rw [escape_cons]
  by_cases hc : special c
  · rw [if_pos hc]
    exact ⟨esc, _, rfl, .inl rfl⟩
  · rw [if_neg hc]
    exact ⟨c, _, rfl, .inr ⟨mem_cons_self, hc⟩⟩

end Escape

variable [DecidableEq α] {esc nul : α} {special stop : α → Prop} [DecidablePred special]
    [DecidablePred stop]

/-- Reading undoes escaping, when everything that stops the reader and the escape character itself
are special. -/
theorem scanEscaped_escape (hesc : special esc) (hstop : ∀ c, stop c → c = nul ∨ special c)
    (hes : ¬ stop esc) (hl : nul ∉ l) {t : α} (ht : stop t) (rest : List α) :
    scanEscaped esc nul stop (escape esc special l ++ t :: rest) = some (l, t :: rest) := by
  induction l with
  | nil =>
    rw [escape_nil]
    cases rest <;> simp [scanEscaped, ht]
  | cons c l ih =>
    have hc : c ≠ nul := fun h => hl (h ▸ mem_cons_self)
    have ih := ih fun h => hl (mem_cons_of_mem c h)
    rw [escape_cons]
    by_cases hsp : special c
    · -- the pair `esc, c` is read as `c`
      rw [if_pos hsp]
      simp only [cons_append, nil_append, scanEscaped, if_neg hes, ne_eq, hc,
        not_false_eq_true, and_self, if_true, ih, Option.map_some]
    · -- `c` neither stops the reader nor escapes what follows
      have hns : ¬ stop c := fun h => (hstop c h).elim hc hsp
      have hne : c ≠ esc := fun h => hsp (h ▸ hesc)
      rw [if_neg hsp]
      obtain ⟨d, tail, htail⟩ : ∃ d tail, escape esc special l ++ t :: rest = d :: tail :=
        exists_cons_of_ne_nil (by simp)
      simp only [cons_append, nil_append]
      rw [htail] at ih ⊢
      simp only [scanEscaped, if_neg hns, hne, false_and, if_false, ih, Option.map_some]

end UBoot.Common
