import Mathlib.Data.List.Basic

/-!
# Runs of a step function

A component is driven by a list of calls. `Guarded` says that every call of a run meets a condition
on the state it is made in; the two rules below turn a one-step argument into one about whole runs.
-/

namespace UBoot.Common

variable {σ τ α : Type*}

/-- Every step of the run of `as` from `s` meets `guard` in the state it starts from. -/
def Guarded (step : σ → α → σ) (guard : σ → α → Prop) : σ → List α → Prop
  | _, [] => True
  | s, a :: as => guard s a ∧ Guarded step guard (step s a) as

instance instDecidableGuarded {step : σ → α → σ} {guard : σ → α → Prop}
    [∀ s a, Decidable (guard s a)] : (s : σ) → (as : List α) → Decidable (Guarded step guard s as)
  | _, [] => .isTrue trivial
  | s, a :: as =>
    have : Decidable (Guarded step guard (step s a) as) := instDecidableGuarded (step s a) as
    inferInstanceAs (Decidable (guard s a ∧ Guarded step guard (step s a) as))

variable {step : σ → α → σ} {guard : σ → α → Prop} {s : σ} {as : List α}

/-- A guarded run may be cut anywhere. -/
theorem Guarded.of_append {bs : List α} (h : Guarded step guard s (as ++ bs)) :
    Guarded step guard s as := by
  induction as generalizing s with
  | nil => trivial
  | cons a as ih => exact ⟨h.1, ih h.2⟩

/-- Every step of a guarded run meets the condition. -/
theorem Guarded.step_of_append {a : α} {bs : List α} (h : Guarded step guard s (as ++ a :: bs)) :
    guard (as.foldl step s) a := by
  induction as generalizing s with
  | nil => exact h.1
  | cons b as ih => exact ih h.2

theorem Guarded.mono {guard' : σ → α → Prop} (himp : ∀ s a, guard s a → guard' s a)
    (h : Guarded step guard s as) : Guarded step guard' s as := by
  induction as generalizing s with
  | nil => trivial
  | cons a as ih => exact ⟨himp s a h.1, ih h.2⟩

theorem Guarded.and {guard' : σ → α → Prop} (h : Guarded step guard s as)
    (h' : Guarded step guard' s as) : Guarded step (fun s a => guard s a ∧ guard' s a) s as := by
  induction as generalizing s with
  | nil => trivial
  | cons a as ih => exact ⟨⟨h.1, h'.1⟩, ih h.2 h'.2⟩

/-- Two conditions that are equivalent as long as an invariant holds, and the first keeps it. -/
theorem Guarded.congr {Inv : σ → Prop} {guard₁ guard₂ : σ → α → Prop}
    (hiff : ∀ s a, Inv s → guard s a → (guard₁ s a ↔ guard₂ s a))
    (hstep : ∀ s a, Inv s → guard s a → guard₁ s a → Inv (step s a)) (hs : Inv s)
      (h : Guarded step guard s as) :
    Guarded step guard₁ s as ↔ Guarded step guard₂ s as := by
  induction as generalizing s with
  | nil => exact Iff.rfl
  | cons a as ih =>
    exact (and_congr_right fun ha => ih (hstep s a hs h.1 ha) h.2).trans
      (and_congr_left' (hiff s a hs h.1))

/-- A run that is not guarded has a first step that is not. -/
theorem Guarded.exists_first_failure (h : ¬ Guarded step guard s as) :
    ∃ bs a cs, as = bs ++ a :: cs ∧ Guarded step guard s bs ∧ ¬ guard (bs.foldl step s) a := by
  induction as generalizing s with
  | nil => exact absurd trivial h
  | cons a as ih =>
    by_cases hg : guard s a
    · obtain ⟨bs, b, cs, rfl, hbs, hb⟩ := ih fun has => h ⟨hg, has⟩
      exact ⟨a :: bs, b, cs, rfl, ⟨hg, hbs⟩, hb⟩
    · exact ⟨[], a, as, rfl, trivial, hg⟩

/-- The invariant rule: what every guarded step preserves holds at the end of a guarded run. -/
theorem Guarded.invariant {Inv : σ → Prop} (hstep : ∀ s a, Inv s → guard s a → Inv (step s a))
    (hs : Inv s) (h : Guarded step guard s as) : Inv (as.foldl step s) := by
  induction as generalizing s with
  | nil => exact hs
  | cons a as ih => exact ih (hstep s a hs h.1) h.2

/-- The simulation rule: a relation that every guarded step preserves, with the abstract side taking
its own step, relates the ends of a guarded run. -/
theorem Guarded.simulation (astep : τ → α → τ)
    (R : σ → τ → Prop) (hstep : ∀ s t a, R s t → guard s a → R (step s a) (astep t a))
    {t : τ} (hs : R s t) (h : Guarded step guard s as) :
    R (as.foldl step s) (as.foldl astep t) := by
  induction as generalizing s t with
  | nil => exact hs
  | cons a as ih => exact ih (hstep s t a hs h.1) h.2

end UBoot.Common
