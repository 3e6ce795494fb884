import UBoot.Env.HashtableSize

/-!
# Runs of calls on the hash table

Any sequence of `hsearch_r(ENTER)`, `hsearch_r(FIND)` and `hdelete_r` calls on a table made by
`hcreate_r`, without permission hook and callbacks, against a finite map of bounded size. The two
stay in step as long as no new key is entered over a live entry (`ReusesLiveSlot`).
-/

namespace UBoot.Env

open UBoot.Common List Function

/-- A call on the table. -/
inductive Call where
  | enter (key data : CStr)
  | find (key : CStr)
  | delete (key : CStr)

namespace Call

/-- The key a call is about. -/
def key : Call → CStr
  | enter key _ => key
  | find key => key
  | delete key => key

/-- The table after the call. -/
def run (s : State Empty Unit) : Call → State Empty Unit
  | enter key data => (hsearchR noHooks key (.enter data) 0 s).1
  | find key => (hsearchR noHooks key .find 0 s).1
  | delete key => (hdeleteR noHooks key 0 s).1

/-- The call does not enter a new key over a live entry. -/
def Safe (s : State Empty Unit) : Call → Prop
  | enter key _ => ¬ ReusesLiveSlot s.htab key
  | _ => True

instance (s : State Empty Unit) : (c : Call) → Decidable (c.Safe s)
  | enter key _ => inferInstanceAs (Decidable (¬ ReusesLiveSlot s.htab key))
  | find _ => .isTrue trivial
  | delete _ => .isTrue trivial

end Call

/-! ## The abstract map -/

/-- The number of keys of a map. -/
noncomputable def liveKeys (m : CStr → Option CStr) : ℕ := {key | m key ≠ none}.ncard

open Classical in
/-- The effect of a call on a map with room for `cap` keys. -/
noncomputable def Call.apply (cap : ℕ) (m : CStr → Option CStr) : Call → CStr → Option CStr
  | .enter key data =>
    if m key = none ∧ liveKeys m = cap then m else update m key (some data)
  | .find _ => m
  | .delete key => update m key none

/-- What `FIND` answers: the data found, nothing, or no answer at all. -/
def findAnswer (s : State Empty Unit) (key : CStr) : Option (Option CStr) :=
  match hsearchR noHooks key .find 0 s with
  | (s', .found idx) => some (some (s'.htab.table idx).entry.data)
  | (_, .failed _) => some none
  | _ => none

/-- The table behaves as the map in the state `s`. -/
structure Refines (s : State Empty Unit) (m : CStr → Option CStr) : Prop where
  find : ∀ key, findAnswer s key = some (m key)
  enter : ∀ key data, m key = none →
    (∃ idx, (hsearchR noHooks key (.enter data) 0 s).2 = .created idx) ∨
      ((hsearchR noHooks key (.enter data) 0 s).2 = .failed .enomem ∧ liveKeys m = s.htab.size)
  filled : s.htab.filled = liveKeys m

/-- After every prefix of the calls the table behaves as the map, and no call changes the answer for
another key. -/
def RefinesMap (htab : Htab Empty) (calls : List Call) : Prop :=
  ∀ pre, pre <+: calls →
    Refines (pre.foldl Call.run ⟨htab, ()⟩) (pre.foldl (Call.apply htab.size) fun _ => none) ∧
      ∀ call, pre ++ [call] <+: calls → ∀ key, key ≠ call.key →
        findAnswer ((pre ++ [call]).foldl Call.run ⟨htab, ()⟩) key = findAnswer
        (pre.foldl Call.run ⟨htab, ()⟩) key

/-! ## The simulation -/

theorem noHooks_benign : noHooks.Benign := noHooks_permissive.toBenign

variable {m : CStr → Option CStr} {s : State Empty Unit}

theorem Rep.liveKeys_eq {htab : Htab Empty} (hr : Rep htab m) : liveKeys m = htab.filled := by
  rw [hr.filled]
  exact hr.stores.ncard_keys

/-- A table that stores a map behaves as it. -/
theorem Rep.refines (hr : Rep s.htab m) : Refines s m where
  find key := by
    rcases hsearchR_find noHooks hr key 0 with ⟨hnone, hfind⟩ | ⟨idx, hfind, -, -, hsome⟩
    · simp only [findAnswer, hfind, hnone]
    · simp only [findAnswer, hfind, hsome]
  enter key data hnone := by
    rcases hr.locate_cases key with ⟨idx, -, -, -, hsome⟩ | ⟨idx, hloc, -⟩
    · exact absurd (hnone.symm.trans hsome) (by simp)
    simp only [hsearchR, hloc]
    by_cases hfull : s.htab.filled = s.htab.size
    · rw [if_pos hfull]
      exact .inr ⟨rfl, by rw [hr.liveKeys_eq, hfull]⟩
    · rw [if_neg hfull]
      exact .inl ⟨_, (createEntry_permissive noHooks_permissive ..).1⟩
  filled := hr.liveKeys_eq.symm

/-- One call keeps table and map in step. -/
theorem Call.run_rep (hr : Rep s.htab m) (call : Call) (hsafe : call.Safe s) :
    Rep (call.run s).htab (call.apply s.htab.size m) := by
  cases call with
  | enter key data =>
    simp only [Call.apply, hr.liveKeys_eq]
    rcases hsearchR_enter noHooks_benign hr key data 0 hsafe with
      ⟨-, -, hsome, hrep⟩ | ⟨-, -, hroom, hrep⟩ | ⟨e, hres, hrep, hfull⟩
    · rw [if_neg fun h => hsome h.1]
      exact hrep
    · rw [if_neg fun h => hroom h.2]
      exact hrep
    · rw [if_pos (hfull (hsearchR_enter_failed noHooks_permissive hres))]
      exact hrep
  | find key =>
    rcases hsearchR_find noHooks hr key 0 with ⟨-, hfind⟩ | ⟨idx, hfind, -⟩
    · simpa only [Call.run, Call.apply, hfind] using hr
    · simpa only [Call.run, Call.apply, hfind] using hr
  | delete key =>
    simp only [Call.apply]
    rcases hdeleteR_spec noHooks_benign hr key 0 with ⟨-, -, hrep⟩ | ⟨e, hres, hrep, hnone⟩
    · exact hrep
    · rw [update_eq_self_iff.mpr (hnone (hdeleteR_failed noHooks_permissive hres)).symm]
      exact hrep

theorem Call.run_size (s : State Empty Unit) (call : Call) :
    (call.run s).htab.size = s.htab.size := by
  cases call with
  | enter | find => exact hsearchR_size noHooks_benign ..
  | delete key => exact hdeleteR_size noHooks_benign ..

/-- A call leaves the map alone at every other key. -/
theorem Call.apply_of_ne (cap : ℕ) (m : CStr → Option CStr) (call : Call) {key : CStr}
    (h : key ≠ call.key) : call.apply cap m key = m key := by
  cases call with
  | enter key' data =>
    simp only [Call.apply]
    split
    · rfl
    · exact update_of_ne h _ _
  | find key' => rfl
  | delete key' => exact update_of_ne h _ _

/-- The table follows the map through every run that enters no new key over a live entry. -/
theorem rep_of_guarded {htab : Htab Empty} {calls : List Call} (hr : Rep htab fun _ => none)
    (hg : Guarded Call.run (fun s call => call.Safe s) ⟨htab, ()⟩ calls) :
    Rep (calls.foldl Call.run ⟨htab, ()⟩).htab (calls.foldl (Call.apply htab.size) fun _ => none) := by
  refine (hg.simulation (Call.apply htab.size) (fun s m => Rep s.htab m ∧ s.htab.size = htab.size)
    ?_ ⟨hr, rfl⟩).1
  rintro s m call ⟨hs, hsize⟩ hsafe
  refine ⟨?_, (call.run_size s).trans hsize⟩
  rw [← hsize]
  exact call.run_rep hs hsafe

/-! ## The table refines a finite map -/

/-- In every run on a fresh table in which no `ENTER` of a new key finds the table without a
never-used slot, not full, and the first slot of the key live, the table behaves as a finite map
after every prefix. -/
theorem hsearchR_refinesMap {nel : ℕ} {htab : Htab Empty} (hc : hcreateR nel = some htab)
    (h5 : 5 ≤ htab.size) {calls : List Call}
    (hg : Guarded Call.run (fun s call => call.Safe s) ⟨htab, ()⟩ calls) :
    RefinesMap htab calls := by
  have hr : Rep htab fun _ => none := by
    obtain ⟨size, rfl, hone | hs⟩ := hcreateR_cases hc
    · exact absurd h5 (by simp [hone])
    · exact rep_fresh hs
  have hrep : ∀ pre, pre <+: calls →
      Rep (pre.foldl Call.run ⟨htab, ()⟩).htab (pre.foldl (Call.apply htab.size) fun _ => none) := by
    rintro pre ⟨post, rfl⟩
    exact rep_of_guarded hr hg.of_append
  intro pre hpre
  refine ⟨(hrep pre hpre).refines, ?_⟩
  intro call hcall key hkey
  rw [(hrep _ hcall).refines.find, (hrep pre hpre).refines.find]
  simp only [foldl_append, foldl_cons, foldl_nil]
  rw [call.apply_of_ne _ _ hkey]

/-- The name with a single character. -/
def letter (c : UInt8) : CStr := CStr.ofBytes [c]

/-- The table made by `hcreate_r(5)`. -/
def smallTable : Htab Empty := ⟨fun _ => default, 5, 0⟩

theorem hcreateR_five : hcreateR 5 = some smallTable := rfl

theorem hsearchR_refinesMap_five : hcreateR 5 = some smallTable ∧ RefinesMap smallTable
    [.enter (letter 97) (letter 120), .delete (letter 97), .enter (letter 97) (letter 121),
    .find (letter 97)] :=
  ⟨rfl, hsearchR_refinesMap hcreateR_five le_rfl (by decide +kernel)⟩

/-- Calls that leave a table of size 5 with one live entry `d` among deleted ones: the five slots
are filled with `a`, `b`, `d`, `e` and `c`, and all but `d` are deleted. -/
def buryCalls : List Call :=
  [.enter (letter 97) (letter 120), .enter (letter 98) (letter 120),
    .enter (letter 100) (letter 120), .enter (letter 101) (letter 120),
    .enter (letter 99) (letter 120), .delete (letter 97), .delete (letter 98),
    .delete (letter 101), .delete (letter 99)]

/-- Entering `i`, whose first slot is the one of `d`, makes `d` disappear. -/
theorem not_refinesMap_buried : hcreateR 5 = some smallTable ∧
    ¬ RefinesMap smallTable (buryCalls ++ [.enter (letter 105) (letter 120)]) := by
  refine ⟨rfl, fun h => ?_⟩
  have hframe := (h buryCalls (prefix_append _ _)).2 (.enter (letter 105) (letter 120))
    (prefix_refl _) (letter 100) (by decide)
  revert hframe
  decide +kernel

end UBoot.Env
