import UBoot.Env.AttrLookup

/-!
# Reading in front of an attribute list

`env_attr_lookup` looks at the character in front of every occurrence of the name that it inspects,
spaces skipped, also where the occurrence is the first thing in the list. `envAttrLookupChecked` has
no value when that character lies outside the list. If it has one, the value is the one
`env_attr_walk` suggests.
-/

namespace UBoot.Env

open UBoot.Common List

section

variable (attrList name : List UInt8)

/-! ### The model -/

/-- The test for an exact match, which has no value if `prevch` leaves the list. -/
def exactMatchChecked (entry : ℕ) : Option Bool :=
  let next := nextch (attrList.drop (entry + name.length))
  (((attrList.take entry).reverse.dropWhile (· = 32)).head?).map fun prev =>
    (entry = 0 ∨ prev = 44) ∧ (next = 58 ∨ next = 44 ∨ next = 0)

/-- The search loop of `env_attr_lookup`, which has no value if it reads outside the list. -/
def attrLookupLoopChecked : ℕ → Option ℕ → Option AttrLookup
  | _, none => some .notFound
  | 0, some _ => some .hang
  | fuel + 1, some entry =>
    match exactMatchChecked attrList name entry with
    | none => none
    | some true => some (.found (attributesAfter (attrList.drop (entry + name.length))))
    | some false => attrLookupLoopChecked fuel (reverseStrstr attrList name (some entry))

/-- `env_attr_lookup` with its reads checked. -/
def envAttrLookupChecked : Option AttrLookup :=
  attrLookupLoopChecked attrList name (attrList.length + 1) (reverseStrstr attrList name none)

/-- The lookup stays inside the list and returns what `env_attr_walk` passes last for the name. -/
def LooksUp : Prop :=
  envAttrLookupChecked attrList name = some (walkedLast attrList name)

/-- The occurrences of the name that are inspected, beginning with a given one: going to the left,
each one is the last that does not overlap the one before, up to the first that is the name of an
entry. -/
inductive InspectsFrom (l name : List UInt8) : Option ℕ → ℕ → Prop where
  | here (e : ℕ) : InspectsFrom l name (some e) e
  | next {e e' : ℕ} (hno : ¬ NamedAt l name e)
      (h : InspectsFrom l name (reverseStrstr l name (some e)) e') : InspectsFrom l name (some e) e'

/-- The occurrences of the name that are inspected, beginning with the last one. -/
def Inspects (l name : List UInt8) (e : ℕ) :
    Prop := InspectsFrom l name (reverseStrstr l name none) e

/-- Nothing but spaces stands in front of index `e`. -/
def Leads (l : List UInt8) (e : ℕ) : Prop := ∀ c ∈ l.take e, c = 32

end

/-! ### The checked lookup -/

section

variable {l name : List UInt8} {e fuel : ℕ} {entry : Option ℕ}

theorem exactMatchChecked_eq_none : exactMatchChecked l name e = none ↔ Leads l e := by
  rw [exactMatchChecked, Option.map_eq_none_iff, head?_eq_none_iff, dropWhile_eq_nil_iff, Leads]
  simp only [mem_reverse, decide_eq_true_eq]

/-- Inside the list the memory in front of it plays no part. -/
theorem exactMatchChecked_eq_some {b : Bool} (h : exactMatchChecked l name e = some b)
    (front : UInt8) : exactMatch front l name e = b := by
  obtain ⟨prev, hprev, rfl⟩ := Option.map_eq_some_iff.mp h
  rw [exactMatch, prevch, headD_eq_head?_getD, hprev]
  rfl

/-- If a comma stood in front of the list, exact matches would be the names of entries. -/
theorem standsAt_comma_iff (hnul : 0 ∉ l) {p : ℕ} : StandsAt 44 l name p ↔ NamedAt l name p := by
  refine standsAt_iff_of_before hnul fun _ => ?_
  rw [prevch, Before]
  cases hskip : (l.take p).reverse.dropWhile (· = 32) with
  | nil => simp
  | cons c rest =>
    have hp : p ≠ 0 := by
      rintro rfl
      simp at hskip
    simp [hp]

theorem attrLookupLoopChecked_eq_some {r : AttrLookup}
    (h : attrLookupLoopChecked l name fuel entry = some r) (front : UInt8) :
    attrLookupLoop front l name fuel entry = r := by
  induction fuel generalizing entry with
  | zero =>
    cases entry with
    | none | some e => exact Option.some.inj h
  | succ fuel ih =>
    rcases entry with _ | e
    · exact Option.some.inj h
    rw [attrLookupLoopChecked] at h
    rw [attrLookupLoop]
    cases hexact : exactMatchChecked l name e with
    | none =>
      rw [hexact] at h
      cases h
    | some b =>
      rw [hexact] at h
      rw [exactMatchChecked_eq_some hexact front]
      cases b with
      | true => exact Option.some.inj h
      | false => exact ih h

/-- A lookup that stays inside the list finds the right attributes. -/
theorem looksUp_iff_ne_none (hn : AttrName name) (hl : AttrList l) :
    LooksUp l name ↔ envAttrLookupChecked l name ≠ none := by
  rw [LooksUp]
  cases h : envAttrLookupChecked l name with
  | none => simp
  | some r =>
    have hr := attrLookupLoopChecked_eq_some h 44
    have hwalk := envAttrLookup_of_standsAt hn hl fun p => standsAt_comma_iff hl.nul_free
    rw [← hwalk, envAttrLookup, hr]
    simp

/-- The loop leaves the list at an occurrence with nothing but spaces in front. -/
theorem attrLookupLoopChecked_eq_none (hn : AttrName name) (hnul : 0 ∉ l) {start : Option ℕ}
    (hlast : LastBelow l name start (l.length + 1) entry) (hfuel : ∀ e ∈ entry, e < fuel) :
    attrLookupLoopChecked l name fuel entry = none ↔ ∃ e, InspectsFrom l name entry e ∧ Leads l e := by
  induction fuel generalizing start entry with
  | zero =>
    cases entry with
    | none => exact ⟨fun h => (nomatch h), fun ⟨_, h, _⟩ => (nomatch h)⟩
    | some e => exact absurd (hfuel e rfl) (Nat.not_lt_zero e)
  | succ fuel ih =>
    rcases entry with _ | e
    · exact ⟨fun h => (nomatch h), fun ⟨_, h, _⟩ => (nomatch h)⟩
    have hocc := (hlast.occurs e rfl).1
    have hlast' := reverseStrstr_spec (s := l) hn.ne_nil (some e)
    have hrest := ih hlast' fun e' he' =>
      (reverseStrstr_lt hn.ne_nil he').trans_le (Nat.le_of_lt_succ (hfuel e rfl))
    rw [attrLookupLoopChecked]
    rcases hexact : exactMatchChecked l name e with _ | b
    · exact ⟨fun _ => ⟨e, .here e, exactMatchChecked_eq_none.mp hexact⟩, fun _ => rfl⟩
    have hinside : ¬ Leads l e := fun h => by
      rw [exactMatchChecked_eq_none.mpr h] at hexact
      cases hexact
    have hnamed : NamedAt l name e ↔ b = true := by
      rw [← standsAt_comma_iff hnul, StandsAt, exactMatchChecked_eq_some hexact 44]
      exact and_iff_right hocc
    cases b with
    | true =>
      refine ⟨fun h => (nomatch h), ?_⟩
      rintro ⟨e', hins, hleads⟩
      cases hins with
      | here => exact absurd hleads hinside
      | next hno _ => exact absurd (hnamed.mpr rfl) hno
    | false =>
      refine hrest.trans ⟨?_, ?_⟩
      · rintro ⟨e', hins, hleads⟩
        exact ⟨e', .next (fun h => nomatch hnamed.mp h) hins, hleads⟩
      · rintro ⟨e', hins, hleads⟩
        cases hins with
        | here => exact absurd hleads hinside
        | next _ hins => exact ⟨e', hins, hleads⟩

/-- On a list of the documented form `env_attr_lookup` stays inside the list and agrees with
`env_attr_walk`, unless it inspects an occurrence of the name with nothing but spaces in front. -/
theorem looksUp_iff (hn : AttrName name) (hl : AttrList l) :
    LooksUp l name ↔ ∀ e, Inspects l name e → ¬ Leads l e := by
  have hlast := reverseStrstr_spec (s := l) hn.ne_nil none
  have hnone := attrLookupLoopChecked_eq_none hn hl.nul_free hlast fun e he => by
    have := (hlast.occurs e he).1.le_length hn.ne_nil
    show e < l.length + 1
    omega
  rw [looksUp_iff_ne_none hn hl, envAttrLookupChecked, Ne, hnone]
  simp only [Inspects, not_exists, not_and]

end

/-- The name `a`. -/
theorem attrName_a : AttrName [97] := by
  constructor <;> decide

/-- Lists without white space are of the documented form. -/
theorem attrList_of_no_space {l : List UInt8} (hnul : 0 ∉ l) (hspace : ∀ c ∈ l, isspace c = false)
    (hattr : ∀ entry ∈ l.splitOn 44, ∀ a ∈ attributesOf entry, 32 ∉ a) : AttrList l where
  nul_free := hnul
  spaces c hc h := by
    rw [hspace c hc] at h
    cases h
  attributes := hattr

/-- In `b,a` the name is found behind the comma. -/
theorem looksUp_second : AttrList [98, 44, 97] ∧ LooksUp [98, 44, 97] [97] := by
  have hlist : AttrList [98, 44, 97] := attrList_of_no_space (by decide +kernel) (by decide +kernel)
    (by decide)
  refine ⟨hlist, (looksUp_iff attrName_a hlist).mpr fun e he hleads => ?_⟩
  cases he with
  | here => exact absurd (hleads 98 (by decide)) (by decide)
  | next hno _ => exact hno ((standsAt_comma_iff (by decide)).mp ⟨prefix_refl _, by decide⟩)

/-- In the list `a` the character in front of the list is read. With a space in front, the name is
not found unless a comma happens to stand in front of the list. -/
theorem not_looksUp_first : AttrList [97] ∧ AttrName [97] ∧ ¬ LooksUp [97] [97] ∧
    walkedLast [32, 97] [97] = .found [] ∧ ∀ front, front ≠ 44 → envAttrLookup front [32, 97]
    [97] = .notFound := by
  refine ⟨attrList_of_no_space (by decide +kernel) (by decide +kernel) (by decide),
    attrName_a, ?_, by decide, ?_⟩
  · exact fun h => (nomatch h)
  · intro front hfront
    have hprev : exactMatch front [32, 97] [97] 1 = false := by
      simp [exactMatch, prevch, hfront]
    have hlast : reverseStrstr [32, 97] [97] none = some 1 := by decide
    rw [envAttrLookup, hlast]
    simp only [attrLookupLoop, hprev]
    rfl

end UBoot.Env
