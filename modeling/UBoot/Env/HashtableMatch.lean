import UBoot.Env.HashtableRuns

/-!
# Enumerating the entries with a given beginning

Reference: `lib/hashtable.c` (`hmatch_r`), `common/env_common.c` (`env_complete`).

`hmatch_r` goes through the slots behind the one it returned last. It looks at the slots `1 … size -
1`, while `hsearch_r` fills the slots `1 … size`, and it takes every slot with a negative `used` for
a deleted one.
-/

namespace UBoot.Env

open UBoot.Common List Function

variable {idx : ℕ}

section Match

variable {κ : Type} (htab : Htab κ)

section

variable (pat : CStr) (i : ℕ)

/-! ### The model -/

/-- The test `!strncmp(match, key, n)`. -/
def strncmpEq (key : CStr) (n : ℕ) : Bool := pat.bytes.take n = key.bytes.take n

/-- The loop of `hmatch_r`. -/
def hmatchLoop : ℕ → ℕ → ℕ
  | 0, _ => 0
  | fuel + 1, idx =>
    if idx < htab.size then
      if (htab.table idx).used ≤ 0 then hmatchLoop fuel (idx + 1)
      else if strncmpEq pat (htab.table idx).entry.key pat.length then idx
      else hmatchLoop fuel (idx + 1)
    else 0

/-- The index returned by `hmatch_r`, as a 32-bit number. No more than `size` slots are looked
at. -/
def hmatchR (lastIdx : ℕ) : ℕ := hmatchLoop htab pat htab.size ((lastIdx + 1) % 2 ^ 32)

/-- The calls that begin with `last_idx` and are fed with the index returned last return the indices
of the list, and then 0. -/
inductive Visits (pat : CStr) : ℕ → List ℕ → Prop where
  | done {lastIdx : ℕ} (h : hmatchR htab pat lastIdx = 0) : Visits pat lastIdx []
  | next {lastIdx idx : ℕ} {l : List ℕ} (h : hmatchR htab pat lastIdx = idx) (hpos : idx ≠ 0)
      (hl : Visits pat idx l) : Visits pat lastIdx (idx :: l)

/-- The slot holds an entry. -/
def Htab.Live : Prop := i ≤ htab.size ∧ (htab.table i).used ≠ 0 ∧ (htab.table i).used ≠ -1

/-- The key in the slot begins with `pat`. -/
def Htab.Begins : Prop := pat.bytes <+: (htab.table i).entry.key.bytes

/-- The calls visit every entry whose key begins with `pat` once, and nothing else, and end. -/
def Enumerates : Prop :=
  ∃ l, Visits htab pat 0 l ∧ l.Nodup ∧ ∀ i, i ∈ l ↔ htab.Live i ∧ htab.Begins pat i

/-! ### What is visited -/

/-- `hmatch_r` stops at the slot. -/
def Htab.stopsAt : Bool :=
  0 < (htab.table i).used ∧ strncmpEq pat (htab.table i).entry.key pat.length

end

variable {htab} {pat : CStr}

/-- The loop returns the first slot of those that are left where it stops. -/
theorem hmatchLoop_eq (fuel : ℕ) (h : htab.size ≤ idx + fuel) :
    hmatchLoop htab pat fuel idx = ((range' idx (htab.size - idx)).find? (htab.stopsAt pat)).getD 0 := by
  induction fuel generalizing idx with
  | zero =>
    rw [Nat.sub_eq_zero_of_le (by omega)]
    rfl
  | succ fuel ih =>
    rw [hmatchLoop]
    by_cases hlt : idx < htab.size
    · obtain ⟨n, hn⟩ : ∃ n, htab.size - idx = n + 1 := ⟨htab.size - idx - 1, by omega⟩
      have hrest : htab.size - (idx + 1) = n := by omega
      have hstop : htab.stopsAt pat idx =
          decide (0 < (htab.table idx).used ∧ strncmpEq pat (htab.table idx).entry.key
          pat.length = true) := rfl
      rw [if_pos hlt, hn, range'_succ, find?_cons, hstop, ih (by omega), hrest]
      by_cases hused : (htab.table idx).used ≤ 0
      · rw [if_pos hused, decide_eq_false (fun h => absurd h.1 hused.not_gt)]
      rw [if_neg hused]
      by_cases heq : strncmpEq pat (htab.table idx).entry.key pat.length = true
      · rw [if_pos heq, decide_eq_true ⟨not_le.mp hused, heq⟩]
        rfl
      · rw [if_neg heq, decide_eq_false (fun h => heq h.2)]
    · rw [if_neg hlt, Nat.sub_eq_zero_of_le (not_lt.mp hlt)]
      rfl

theorem hmatchR_eq (htab : Htab κ) (pat : CStr) {lastIdx : ℕ} (h : lastIdx + 1 < 2 ^ 32) :
    hmatchR htab pat lastIdx =
      ((range' (lastIdx + 1) (htab.size - (lastIdx + 1))).find? (htab.stopsAt pat)).getD 0 := by
  rw [hmatchR, Nat.mod_eq_of_lt h]
  exact hmatchLoop_eq _ (by omega)

theorem Visits.congr {i j : ℕ} {l : List ℕ} (h : hmatchR htab pat i = hmatchR htab pat j)
    (hv : Visits htab pat j l) : Visits htab pat i l := by
  cases hv with
  | done h0 => exact .done (h.trans h0)
  | next hidx hpos hl => exact .next (h.trans hidx) hpos hl

theorem Visits.unique {i : ℕ} {l l' : List ℕ} (h : Visits htab pat i l)
    (h' : Visits htab pat i l') : l = l' := by
  induction h generalizing l' with
  | done h0 =>
    cases h' with
    | done _ => rfl
    | next hidx hpos _ => exact absurd (hidx.symm.trans h0) hpos
  | next hidx hpos _ ih =>
    cases h' with
    | done h0 => exact absurd (hidx.symm.trans h0) hpos
    | next hidx' _ hl' =>
      obtain rfl := hidx.symm.trans hidx'
      rw [ih hl']

/-- The slots where `hmatch_r` stops, in order. -/
theorem visits_filter (hsize : htab.size < 2 ^ 32) (pat : CStr) (n : ℕ) {lastIdx : ℕ}
    (hn : htab.size - (lastIdx + 1) = n) (hlast : lastIdx ≤ htab.size) (hlt : lastIdx + 1 < 2 ^ 32) :
    Visits htab pat lastIdx ((range' (lastIdx + 1) n).filter (htab.stopsAt pat)) := by
  induction n generalizing lastIdx with
  | zero =>
    refine .done ?_
    rw [hmatchR_eq _ _ hlt, hn]
    rfl
  | succ n ih =>
    have hcall := hmatchR_eq htab pat hlt
    have hn' : htab.size - (lastIdx + 1 + 1) = n := by omega
    have hrest := ih hn' (by omega) (by omega)
    rw [hn, range'_succ, find?_cons] at hcall
    rw [range'_succ, filter_cons]
    cases hstop : htab.stopsAt pat (lastIdx + 1) with
    | true =>
      rw [hstop] at hcall
      exact .next hcall (Nat.succ_ne_zero _) hrest
    | false =>
      rw [hstop] at hcall
      refine hrest.congr (hcall.trans ?_)
      rw [hmatchR_eq _ _ (by omega), hn']

/-- All entries with the given beginning are visited if none of them is in the first or last slot or
has a negative `used`. -/
theorem enumerates_iff (hsize : htab.size < 2 ^ 32) :
    Enumerates htab pat ↔ ∀ i, htab.Live i → htab.Begins pat i → 0 < i ∧ i < htab.size ∧
    0 < (htab.table i).used := by
  have hvisits := visits_filter hsize pat (htab.size - (0 + 1)) rfl (Nat.zero_le _) (by norm_num)
  have hmem : ∀ i, i ∈ (range' (0 + 1) (htab.size - (0 + 1))).filter (htab.stopsAt pat) ↔
      (0 < i ∧ i < htab.size) ∧ 0 < (htab.table i).used ∧ htab.Begins pat i := by
    intro i
    rw [mem_filter, mem_range'_1, Htab.stopsAt, decide_eq_true_iff, strncmpEq, decide_eq_true_iff,
      Htab.Begins, prefix_iff_eq_take, CStr.length, take_length]
    refine and_congr_left fun _ => ?_
    omega
  constructor
  · rintro ⟨l, hl, -, hall⟩ i hlive hbegins
    rw [hl.unique hvisits] at hall
    obtain ⟨hi, hused, -⟩ := (hmem i).mp ((hall i).mpr ⟨hlive, hbegins⟩)
    exact ⟨hi.1, hi.2, hused⟩
  · intro hall
    refine ⟨_, hvisits, filter_sublist.nodup (nodup_range' ..), fun i => ?_⟩
    rw [hmem]
    constructor
    · rintro ⟨hi, hused, hbegins⟩
      exact ⟨⟨by omega, by omega, by omega⟩, hbegins⟩
    · rintro ⟨hlive, hbegins⟩
      obtain ⟨hpos, hlt, hused⟩ := hall i hlive hbegins
      exact ⟨⟨hpos, hlt⟩, hused, hbegins⟩

end Match

/-! ### Tables that are reached -/

section Reached

variable {κ γ : Type} {hk : Hooks κ γ}

/-- The states reached from a table made by `hcreate_r`. -/
inductive Reachable (hk : Hooks κ γ) (nel : ℕ) : State κ γ → Prop where
  | fresh {htab : Htab κ} (h : hcreateR nel = some htab) (globals : γ) : Reachable hk nel ⟨htab, globals⟩
  | search {s : State κ γ} (h : Reachable hk nel s) (key : CStr) (action : Action) (flag : ℕ) :
      Reachable hk nel (hsearchR hk key action flag s).1
  | delete {s : State κ γ} (h : Reachable hk nel s) (key : CStr) (flag : ℕ) :
      Reachable hk nel (hdeleteR hk key flag s).1

/-- Slot 0 stays unused. In a table of size 1, where the probe can come to slot 0, this rests on
`filled`. -/
structure ZeroFree (htab : Htab κ) : Prop where
  sized : htab.size = 1 ∨ WellSized htab.size
  zero : (htab.table 0).used = 0
  one : htab.size = 1 → htab.filled = 1 ∨ htab.filled = 0 ∧ (htab.table 1).used ∈ [0, -1]

theorem zeroFree_fresh {size : ℕ} (h : size = 1 ∨ WellSized size) :
    ZeroFree (⟨fun _ => default, size, 0⟩ : Htab κ) :=
  ⟨h, rfl, fun _ => .inr ⟨rfl, mem_cons_self⟩⟩

variable {htab : Htab κ} (h : ZeroFree htab)
include h

theorem ZeroFree.congr {htab' : Htab κ} (hsize : htab'.size = htab.size)
    (hfilled : htab'.filled = htab.filled)
    (hused : ∀ i, (htab'.table i).used = (htab.table i).used) : ZeroFree htab' := by
  refine ⟨hsize ▸ h.sized, (hused 0).trans h.zero, ?_⟩
  rw [hsize, hfilled, hused]
  exact h.one

theorem ZeroFree.of_sameLayout {htab' : Htab κ} (hl : SameLayout htab htab') : ZeroFree htab' :=
  h.congr hl.size hl.filled hl.used

theorem ZeroFree.setData (idx : ℕ) (data : CStr) :
    ZeroFree (htab.modifyEntry idx fun e => { e with data := data }) := by
  refine h.congr rfl rfl fun i => ?_
  by_cases hi : i = idx
  · subst hi
    simp only [Htab.modifyEntry, update_self]
  · exact congrArg Slot.used (update_of_ne hi ..)

theorem ZeroFree.store (hpos : 0 < idx) (hroom : htab.filled ≠ htab.size) (hval : ℕ)
    (key data : CStr) : ZeroFree (htab.store idx hval key data) := by
  refine ⟨h.sized, ?_, fun h1 => .inl ?_⟩
  · exact (congrArg Slot.used (update_of_ne hpos.ne ..)).trans h.zero
  · have hfilled := h.one h1
    have h1' : htab.size = 1 := h1
    show htab.filled + 1 = 1
    omega

theorem ZeroFree.hdelete (hpos : 0 < idx) (hle : idx ≤ htab.size) :
    ZeroFree (htab.hdelete idx) := by
  refine ⟨h.sized, ?_, fun h1 => .inr ⟨?_, ?_⟩⟩
  · exact (congrArg Slot.used (update_of_ne hpos.ne ..)).trans h.zero
  · have hfilled := h.one h1
    show htab.filled - 1 = 0
    omega
  · have h1' : htab.size = 1 := h1
    obtain rfl : idx = 1 := by omega
    exact mem_cons_of_mem _ mem_cons_self

theorem ZeroFree.firstIndex_mem (key : CStr) : 0 < firstIndex htab.size key ∧
    firstIndex htab.size key ≤ htab.size := by
  rcases h.sized with h1 | hs
  · rw [firstIndex, h1, Nat.mod_one]
    exact ⟨one_pos, le_rfl⟩
  · exact ⟨(hs.firstIndex_mem key).1, (hs.firstIndex_mem key).2.le⟩

omit h

/-- The probe stays inside the table, except for a key that is not the one in a table of size 1. -/
theorem locate_inside (h : ZeroFree htab) (key : CStr) :
    (locate htab key).Inside htab.size ∨
      locate htab key = .bucket 0 ∧ htab.size = 1 ∧ firstIndex htab.size key = 1 ∧
      (htab.table 1).used ≠ 0 := by
  have hfirst := h.firstIndex_mem key
  simp only [locate]
  split
  · exact .inl hfirst
  next hused =>
  split
  · exact .inl hfirst
  rcases h.sized with h1 | hs
  · have hone : firstIndex htab.size key = 1 := by omega
    have hholds : (htab.table 0).holds 1 key = false := by
      rw [Slot.holds, h.zero]
      simp [intOfU32]
    refine .inr ⟨?_, h1, hone, hone ▸ hused⟩
    rw [hone]
    simp [locateLoop, probeStep, stepDown, h1, hholds, h.zero]
  · have : Fact htab.size.Prime := ⟨hs.prime⟩
    have hstep := (hs.probeStep_mem (firstIndex htab.size key)).2
    exact .inl (locateLoop_inside (probe_mem hstep hfirst) (probe_turn hstep hfirst)
      key htab.size (k := 0) (by omega) (by omega))

theorem locate_ne_hang (h : ZeroFree htab) (key : CStr) : locate htab key ≠ .hang := by
  intro hloc
  rcases locate_inside h key with hin | ⟨hbucket, -⟩
  · rw [hloc] at hin
    exact hin
  · cases hloc.symm.trans hbucket

/-- An entry that is found is in a slot of the table. -/
theorem locate_mem (h : ZeroFree htab) {key : CStr} (hloc : locate htab key = .entry idx) :
    0 < idx ∧ idx ≤ htab.size := by
  have hinside := locate_inside h key
  rw [hloc] at hinside
  exact hinside.resolve_right (by simp)

variable {s : State κ γ}

/-- The slot where a new entry is created. -/
theorem target_mem (h : ZeroFree htab) {key : CStr} (hloc : locate htab key = .bucket idx)
    (hroom : htab.filled ≠ htab.size) :
    0 < (if firstDeleted htab key ≠ 0 then firstDeleted htab key else idx) ∧
      (if firstDeleted htab key ≠ 0 then firstDeleted htab key else idx) ≤ htab.size := by
  have hfirst := h.firstIndex_mem key
  have hinside := locate_inside h key
  rw [hloc] at hinside
  by_cases hdel : (htab.table (firstIndex htab.size key)).used = -1
  · have hdeleted : firstDeleted htab key = firstIndex htab.size key := if_pos hdel
    rw [if_pos (by omega), hdeleted]
    exact hfirst
  · have hdeleted : firstDeleted htab key = 0 := if_neg hdel
    rw [if_neg (not_not.mpr hdeleted)]
    rcases hinside with hin | ⟨-, h1, hone, hused⟩
    · exact hin
    -- the only slot is neither free nor deleted, so the table would be full
    rw [hone] at hdel
    rcases h.one h1 with hfull | ⟨-, hmem⟩
    · exact absurd (hfull.trans h1.symm) hroom
    · rcases mem_cons.mp hmem with h0 | hmem
      · exact absurd h0 hused
      · exact absurd (mem_singleton.mp hmem) hdel

variable (hb : hk.Benign)
include hb

theorem hsearchR_zeroFree (h : ZeroFree s.htab) (key : CStr) (action : Action)
    (flag : ℕ) : ZeroFree (hsearchR hk key action flag s).1.htab := by
  simp only [hsearchR]
  cases hloc : locate s.htab key with
  | hang => exact h
  | entry idx =>
    cases action with
    | find => exact h
    | enter data =>
      obtain ⟨h', hl, ⟨-, heq⟩ | ⟨-, heq, -⟩⟩ := overwriteEntry_settles hb key data flag idx s
      · rw [heq]
        exact (h.of_sameLayout hl).setData idx data
      · rw [heq]
        exact h.of_sameLayout hl
  | bucket idx =>
    cases action with
    | find => exact h
    | enter data =>
      simp only
      split
      · exact h
      · next hroom =>
        obtain ⟨hpos, hle⟩ := target_mem h hloc hroom
        have hstore := h.store hpos hroom (firstIndex s.htab.size key) key data
        obtain ⟨h', hl, ⟨-, heq⟩ | ⟨-, heq, -⟩⟩ := createEntry_settles hb key data flag _ s
        · rw [heq]
          exact hstore.of_sameLayout hl
        · rw [heq]
          exact (hstore.of_sameLayout hl).hdelete hpos (hle.trans_eq hl.size.symm)

theorem hdeleteR_zeroFree (h : ZeroFree s.htab) (key : CStr) (flag : ℕ) :
    ZeroFree (hdeleteR hk key flag s).1.htab := by
  cases hloc : locate s.htab key with
  | hang => exact absurd hloc (locate_ne_hang h key)
  | bucket idx =>
    rw [hdeleteR_of_bucket hloc]
    exact h
  | entry idx =>
    have hidx := locate_mem h hloc
    obtain ⟨h', hl, ⟨-, heq⟩ | ⟨-, heq, -⟩⟩ := hdeleteR_settles hb hloc flag
    · rw [heq]
      exact (h.of_sameLayout hl).hdelete hidx.1 (hidx.2.trans_eq hl.size.symm)
    · rw [heq]
      exact h.of_sameLayout hl

/-- No call uses slot 0. -/
theorem Reachable.zeroFree {nel : ℕ} (h : Reachable hk nel s) : ZeroFree s.htab := by
  induction h with
  | fresh hc globals =>
    obtain ⟨size, rfl, hsize⟩ := hcreateR_cases hc
    exact zeroFree_fresh hsize
  | search _ key action flag ih => exact hsearchR_zeroFree hb ih key action flag
  | delete _ key flag ih => exact hdeleteR_zeroFree hb ih key flag

/-- On a table reached by inserts and deletes, every entry whose key begins with the given string is
visited once if and only if none of these entries is in the last slot and none has a negative
`used`. -/
theorem hmatchR_enumerates_iff {nel : ℕ} {s : State κ γ} (h : Reachable hk nel s) (pat : CStr) :
    Enumerates s.htab pat ↔ ∀ i, s.htab.Live i → s.htab.Begins pat i → i ≠ s.htab.size ∧
    0 < (s.htab.table i).used := by
  have hzero := h.zeroFree hb
  have hsize : s.htab.size < 2 ^ 32 := by
    rcases hzero.sized with h1 | hs
    · rw [h1]
      norm_num
    · exact hs.lt
  rw [enumerates_iff hsize]
  refine forall₃_congr fun i hlive _ => ?_
  have hpos : i ≠ 0 := by
    rintro rfl
    exact hlive.2.1 hzero.zero
  have hle := hlive.1
  omega

end Reached

/-- The calls without hooks stay among the reachable states. -/
theorem Reachable.foldl_run {nel : ℕ} {s : State Empty Unit} (h : Reachable noHooks nel s)
    (calls : List Call) : Reachable noHooks nel (calls.foldl Call.run s) := by
  induction calls generalizing s with
  | nil => exact h
  | cons call calls ih =>
    apply ih
    cases call with
    | enter key data => exact h.search key (.enter data) 0
    | find key => exact h.search key .find 0
    | delete key => exact h.delete key 0

/-- A table of size 5 after some names with the value `x` were entered. -/
def enteredSmall (names : List CStr) : State Empty Unit :=
  (names.map (Call.enter · (letter 120))).foldl Call.run ⟨smallTable, ()⟩

theorem reachable_enteredSmall (names : List CStr) : Reachable noHooks 5 (enteredSmall names) :=
  (Reachable.fresh hcreateR_five ()).foldl_run _

/-- The first slot of `b` and `g` is slot 4, and `g` goes to slot 2. -/
theorem enumerates_two : Reachable noHooks 5 (enteredSmall [letter 98, letter 103]) ∧
    Enumerates (enteredSmall [letter 98, letter 103]).htab ∅ := by
  have hreached := reachable_enteredSmall [letter 98, letter 103]
  refine ⟨hreached, (hmatchR_enumerates_iff noHooks_benign hreached ∅).mpr ?_⟩
  have hslots : ∀ i ≤ 5, ((enteredSmall [letter 98, letter 103]).htab.table i).used ≠ 0 →
      i ≠ 5 ∧ 0 < ((enteredSmall [letter 98, letter 103]).htab.table i).used := by decide +kernel
  intro i hlive _
  exact hslots i hlive.1 hlive.2.1

/-- With `l` as the third name the probe goes on to slot 5, the last one, and `l` is not found by
its own name. -/
theorem not_enumerates_lastSlot : Reachable noHooks 5
    (enteredSmall [letter 98, letter 103, letter 108]) ∧
    ¬ Enumerates (enteredSmall [letter 98, letter 103, letter 108]).htab (letter 108) := by
  have hsize : (enteredSmall [letter 98, letter 103, letter 108]).htab.size = 5 := by decide +kernel
  have hused : ((enteredSmall [letter 98, letter 103, letter 108]).htab.table 5).used = 4 := by
    decide +kernel
  have hkey : ((enteredSmall [letter 98, letter 103, letter 108]).htab.table 5).entry.key = letter
    108 := by
    decide +kernel
  refine ⟨reachable_enteredSmall _, fun hall => ?_⟩
  rw [enumerates_iff (by omega)] at hall
  have hlast := (hall 5 ⟨hsize.ge, by rw [hused]; decide, by rw [hused]; decide⟩ (by
    rw [Htab.Begins, hkey])).2.1
  exact absurd hlast (lt_irrefl 5)

end UBoot.Env
