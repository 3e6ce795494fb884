import UBoot.Common.OpenAddressing
import UBoot.Common.Run
import UBoot.Env.Hashtable

/-!
# The hash table as a finite map

`Rep htab m` says that the table stores the finite map `m`: it instantiates the open-addressing
relation at the probe order of `hsearch_r` and ties the `used` field of a live slot to its key and
`filled` to the number of live slots. `hsearchR_enter` and `hdeleteR_spec` give the effect of one
call for any hooks that leave keys, data and slots alone (`Hooks.Benign`).

One branch of `hsearch_r` breaks the relation. When the probe comes back to the first index `hval`
without having met a never-used slot, a new entry is stored in slot `hval` unless the table is full
or that very slot is deleted; deleted slots further along the probe are not remembered, so a live
entry in slot `hval` is overwritten. `ReusesLiveSlot` describes the states in which this happens.
-/

namespace UBoot.Env

open UBoot.Common Function

/-! ## Probe order -/

/-- The table sizes considered: odd primes that fit an `unsigned int`. -/
structure WellSized (size : ℕ) : Prop where
  prime : size.Prime
  three_le : 3 ≤ size
  lt : size < 2 ^ 32

variable {size : ℕ}

section

variable (h : WellSized size)

include h

theorem WellSized.firstIndex_mem (key : CStr) : 1 ≤ firstIndex size key ∧
    firstIndex size key < size := by
  have hlt : hashKey key % size < size := Nat.mod_lt _ (by have := h.three_le; omega)
  have h3 := h.three_le
  simp only [firstIndex]
  split <;> omega

theorem WellSized.probeStep_mem (hval : ℕ) : 0 < probeStep size hval ∧
    probeStep size hval < size := by
  have h3 := h.three_le
  have hlt : hval % (size - 2) < size - 2 := Nat.mod_lt _ (by omega)
  simp only [probeStep]
  omega

/-- The order in which `hsearch_r` visits the slots for each key. -/
def probeOrder (h : WellSized size) : ProbeOrder CStr where
  n := size
  slots := Finset.Icc 1 size
  seq key j := probe size (probeStep size (firstIndex size key)) (firstIndex size key) j
  seq_mem key j _ := by
    have hm := h.firstIndex_mem key
    rw [Finset.mem_Icc]
    exact probe_mem (h.probeStep_mem _).2 ⟨hm.1, hm.2.le⟩ j
  seq_inj key j l hj hl heq := by
    have : Fact size.Prime := ⟨h.prime⟩
    exact probe_inj (h.probeStep_mem _) hj hl heq
  seq_surj key i hi := by
    have : Fact size.Prime := ⟨h.prime⟩
    have hm := h.firstIndex_mem key
    exact exists_probe_eq (h.probeStep_mem _) ⟨hm.1, hm.2.le⟩ (by simpa using hi)

variable (key : CStr)

theorem probeOrder_seq_succ (j : ℕ) :
    (probeOrder h).seq key (j + 1) = stepDown size (probeStep size (firstIndex size key))
    ((probeOrder h).seq key j) :=
  probe_succ ..

theorem firstIndex_mem_slots : firstIndex size key ∈ (probeOrder h).slots := by
  have hm := h.firstIndex_mem key
  exact Finset.mem_Icc.mpr ⟨hm.1, hm.2.le⟩

/-- The first index stored into `used` marks the slot as neither free nor deleted. -/
theorem WellSized.intOfU32_firstIndex : intOfU32 (firstIndex size key) ≠ 0 ∧ intOfU32
    (firstIndex size key) ≠ -1 := by
  have hm := h.firstIndex_mem key
  have hlt := h.lt
  unfold intOfU32
  split <;> omega

end

variable {i idx j : ℕ} {data : CStr}

/-! ## Slots as cells -/

section Cells

variable {κ : Type}

/-- What a slot means for the table. -/
def Slot.cell (slot : Slot κ) : Cell CStr CStr :=
  if slot.used = 0 then .empty
  else if slot.used = -1 then .deleted
  else .live slot.entry.key slot.entry.data

variable (slot : Slot κ)

theorem Slot.cell_eq_empty : slot.cell = .empty ↔ slot.used = 0 := by
  unfold Slot.cell
  split_ifs <;> simp_all

theorem Slot.cell_eq_live (key data : CStr) :
    slot.cell = .live key data ↔ (slot.used ≠ 0 ∧ slot.used ≠ -1) ∧ slot.entry.key = key ∧
    slot.entry.data = data := by
  unfold Slot.cell
  split_ifs <;> simp_all

theorem Slot.isLive_cell : slot.cell.isLive = false ↔ slot.used = 0 ∨ slot.used = -1 := by
  unfold Slot.cell
  split_ifs <;> simp_all [Cell.isLive]

/-- The table seen as cells. -/
def Htab.cells (htab : Htab κ) (i : ℕ) : Cell CStr CStr := (htab.table i).cell

/-- The table stores the finite map `m`. -/
structure Rep (htab : Htab κ) (m : CStr → Option CStr) : Prop where
  sized : WellSized htab.size
  hash : ∀ i ∈ (probeOrder sized).slots, ∀ key data, htab.cells i = .live key data →
    (htab.table i).used = intOfU32 (firstIndex htab.size key)
  stores : (probeOrder sized).Represents htab.cells m
  filled : htab.filled = (probeOrder sized).liveCount htab.cells

/-- Two tables differ at most in the callbacks and flags of their entries. -/
structure SameLayout (h h' : Htab κ) : Prop where
  size : h'.size = h.size
  filled : h'.filled = h.filled
  used : ∀ i, (h'.table i).used = (h.table i).used
  key : ∀ i, (h'.table i).entry.key = (h.table i).entry.key
  data : ∀ i, (h'.table i).entry.data = (h.table i).entry.data

theorem SameLayout.refl (h : Htab κ) : SameLayout h h :=
  ⟨rfl, rfl, fun _ => rfl, fun _ => rfl, fun _ => rfl⟩

theorem SameLayout.trans {h₁ h₂ h₃ : Htab κ} (a : SameLayout h₁ h₂) (b : SameLayout h₂ h₃) :
    SameLayout h₁ h₃ :=
  ⟨b.size.trans a.size, b.filled.trans a.filled, fun i => (b.used i).trans (a.used i),
    fun i => (b.key i).trans (a.key i), fun i => (b.data i).trans (a.data i)⟩

theorem SameLayout.cells_eq {h h' : Htab κ} (hl : SameLayout h h') : h'.cells = h.cells := by
  funext i
  simp only [Htab.cells, Slot.cell, hl.used, hl.key, hl.data]

theorem SameLayout.mem_slots {h h' : Htab κ} (hl : SameLayout h h') {hs : WellSized h.size}
    {hs' : WellSized h'.size} (hi : i ∈ (probeOrder hs).slots) :
    i ∈ (probeOrder hs').slots := by
  have hm := Finset.mem_Icc.mp hi
  exact Finset.mem_Icc.mpr ⟨hm.1, by rw [hl.size]; exact hm.2⟩

/-- Being a map does not depend on callbacks and flags. -/
theorem Rep.of_sameLayout {h h' : Htab κ} {m : CStr → Option CStr} (hr : Rep h m)
    (hl : SameLayout h h') : Rep h' m := by
  obtain ⟨table, size, filled⟩ := h
  have hcells := hl.cells_eq
  obtain ⟨hsize, hfilled, hused, -, -⟩ := hl
  obtain ⟨sized, hash, stores, count⟩ := hr
  subst hsize hfilled
  refine ⟨sized, ?_, ?_, ?_⟩
  · intro i hi key data hlive
    rw [hcells] at hlive
    rw [hused]
    exact hash i hi key data hlive
  · rw [hcells]
    exact stores
  · rw [hcells]
    exact count

end Cells

/-! ## What the probe finds -/

variable {key : CStr}

section Locate

variable {κ : Type} {htab : Htab κ} {m : CStr → Option CStr}

/-- A slot that the comparison accepts is live and holds the key. -/
theorem Slot.cell_of_holds (h : WellSized size) {slot : Slot κ}
    (hh : slot.holds (firstIndex size key) key) : slot.cell = .live key slot.entry.data := by
  simp only [Slot.holds, decide_eq_true_eq] at hh
  have hne := h.intOfU32_firstIndex key
  rw [Slot.cell_eq_live]
  exact ⟨⟨by rw [hh.1]; exact hne.1, by rw [hh.1]; exact hne.2⟩, hh.2.symm, rfl⟩

/-- The comparison accepts every live slot of the key. -/
theorem Rep.holds_of_live (hr : Rep htab m) (hi : i ∈ (probeOrder hr.sized).slots)
    (hlive : htab.cells i = .live key data) :
    (htab.table i).holds (firstIndex htab.size key) key := by
  have hkey := ((Slot.cell_eq_live _ _ _).mp hlive).2.1
  simp only [Slot.holds, decide_eq_true_eq]
  exact ⟨hr.hash i hi key data hlive, hkey.symm⟩

/-- The bucket at which a probe for an absent key ends: a never-used slot behind used ones, or the
first index when every slot is in use. -/
def IsBucket (hs : WellSized htab.size) (key : CStr) (idx : ℕ) : Prop :=
  (∃ j < htab.size, idx = (probeOrder hs).seq key j ∧ htab.cells idx = .empty ∧
      ∀ l < j, htab.cells ((probeOrder hs).seq key l) ≠ .empty) ∨
    (idx = firstIndex htab.size key ∧ ∀ i ∈ (probeOrder hs).slots, htab.cells i ≠ .empty)

/-- The meaning of the outcomes of a probe. -/
def LocateSpec (hs : WellSized htab.size) (m : CStr → Option CStr) (key : CStr) : Located → Prop
  | .entry idx => idx ∈ (probeOrder hs).slots ∧ htab.cells idx = .live key (htab.table idx).entry.data
  | .bucket idx => m key = none ∧ IsBucket hs key idx
  | .hang => False

/-- The probe loop, from its `j`-th slot: so far only used slots of other keys were met. -/
theorem locateLoop_spec (hr : Rep htab m) (key : CStr) :
    ∀ (fuel j : ℕ), fuel + j = htab.size → j < htab.size →
      (∀ l ≤ j, htab.cells ((probeOrder hr.sized).seq key l) ≠ .empty ∧
        ∀ data, htab.cells ((probeOrder hr.sized).seq key l) ≠ .live key data) →
      LocateSpec hr.sized m key (locateLoop htab key (firstIndex htab.size key)
          (probeStep htab.size (firstIndex htab.size key)) fuel ((probeOrder hr.sized).seq key j))
  | 0, j, hfuel, hj, _ => by omega
  | fuel + 1, j, hfuel, hj, hmiss => by
    have hprime : Fact htab.size.Prime := ⟨hr.sized.prime⟩
    have hstep := hr.sized.probeStep_mem (firstIndex htab.size key)
    have hfirst := hr.sized.firstIndex_mem key
    rw [locateLoop, ← probeOrder_seq_succ]
    set slot := (probeOrder hr.sized).seq key (j + 1)
    by_cases hback : slot = firstIndex htab.size key
    · -- a full turn: every slot has been visited
      have hj1 : j + 1 = htab.size := by
        by_contra hne
        exact probe_ne_start hstep (Nat.succ_pos j) (by omega) hback
      rw [if_pos hback, hback]
      refine ⟨hr.stores.absent_of_miss fun l hl => (hmiss l ?_).2, .inr ⟨rfl, ?_⟩⟩
      · change l < htab.size at hl
        omega
      · intro i hi
        obtain ⟨l, hl, rfl⟩ := (probeOrder hr.sized).seq_surj key i hi
        change l < htab.size at hl
        exact (hmiss l (by omega)).1
    · have hj1 : j + 1 < htab.size := by
        refine lt_of_le_of_ne hj fun h1 => hback ?_
        change probe _ _ _ (j + 1) = _
        rw [h1]
        exact probe_turn hstep.2 ⟨hfirst.1, hfirst.2.le⟩
      rw [if_neg hback]
      have hmem := (probeOrder hr.sized).seq_mem key (j + 1) hj1
      by_cases hhold : (htab.table slot).holds (firstIndex htab.size key) key
      · rw [if_pos hhold]
        exact ⟨hmem, Slot.cell_of_holds hr.sized hhold⟩
      rw [if_neg hhold]
      have hother : ∀ data, htab.cells slot ≠ .live key data :=
        fun data hlive => hhold (hr.holds_of_live hmem hlive)
      by_cases hused : (htab.table slot).used = 0
      · rw [if_neg (by simpa using hused)]
        have hempty := (Slot.cell_eq_empty _).mpr hused
        refine ⟨hr.stores.absent_of_empty hj1 hempty fun l hl => (hmiss l (by omega)).2,
          .inl ⟨j + 1, hj1, rfl, hempty, fun l hl => (hmiss l (by omega)).1⟩⟩
      · rw [if_pos hused]
        apply locateLoop_spec hr key fuel (j + 1) (by omega) hj1
        intro l hl
        rcases Nat.le_succ_iff.mp hl with h | rfl
        · exact hmiss l h
        · exact ⟨fun he => hused ((Slot.cell_eq_empty _).mp he), hother⟩

/-- The probe ends, and it ends where it should. -/
theorem locate_spec (hr : Rep htab m) (key : CStr) :
    LocateSpec hr.sized m key (locate htab key) := by
  have hmem := firstIndex_mem_slots hr.sized key
  have hpos : 0 < htab.size := by have := hr.sized.three_le; omega
  simp only [locate]
  set idx := firstIndex htab.size key
  by_cases hused : (htab.table idx).used = 0
  · rw [if_pos hused]
    have hempty : htab.cells idx = .empty := (Slot.cell_eq_empty _).mpr hused
    exact ⟨hr.stores.absent_of_empty hpos hempty (fun l hl => absurd hl (by omega)),
      .inl ⟨0, hpos, rfl, hempty, fun l hl => absurd hl (by omega)⟩⟩
  · rw [if_neg hused]
    by_cases hhold : (htab.table idx).holds idx key
    · rw [if_pos hhold]
      exact ⟨hmem, Slot.cell_of_holds hr.sized hhold⟩
    rw [if_neg hhold]
    apply locateLoop_spec hr key htab.size 0 rfl hpos
    intro l hl
    obtain rfl : l = 0 := by omega
    exact ⟨fun he => hused ((Slot.cell_eq_empty _).mp he), fun data hlive => hhold
      (hr.holds_of_live hmem hlive)⟩

/-- The probe finds the entry of a key in the map, and a bucket for any other key. -/
theorem Rep.locate_cases (hr : Rep htab m) (key : CStr) :
    (∃ idx, locate htab key = .entry idx ∧ idx ∈ (probeOrder hr.sized).slots ∧
        htab.cells idx = .live key (htab.table idx).entry.data ∧
        m key = some (htab.table idx).entry.data) ∨
      ∃ idx, locate htab key = .bucket idx ∧ m key = none ∧ IsBucket hr.sized key idx := by
  have hspec := locate_spec hr key
  cases hloc : locate htab key with
  | hang =>
    rw [hloc] at hspec
    exact hspec.elim
  | entry idx =>
    rw [hloc] at hspec
    exact .inl ⟨idx, rfl, hspec.1, hspec.2, hr.stores.get_of_live hspec.1 hspec.2⟩
  | bucket idx =>
    rw [hloc] at hspec
    exact .inr ⟨idx, rfl, hspec⟩

/-- A table that stores a map is searched correctly. -/
theorem Rep.lookup_eq (hr : Rep htab m) (key : CStr) : lookup htab key = m key := by
  rcases hr.locate_cases key with ⟨idx, hloc, -, -, hsome⟩ | ⟨idx, hloc, hnone, -⟩
  · rw [lookup, hloc, hsome]
  · rw [lookup, hloc, hnone]

end Locate

/-! ## What a change of a slot does to the map -/

section Changes

variable {κ : Type} {htab : Htab κ} {m : CStr → Option CStr}

theorem cells_store (hs : WellSized htab.size) (idx : ℕ) (key data : CStr) :
    (htab.store idx (firstIndex htab.size key) key data).cells = update htab.cells idx
    (.live key data) := by
  refine (comp_update Slot.cell ..).trans (congrArg _ ?_)
  exact (Slot.cell_eq_live ..).mpr ⟨hs.intOfU32_firstIndex key, rfl, rfl⟩

theorem cells_hdelete (idx : ℕ) : (htab.hdelete idx).cells = update htab.cells idx .deleted :=
  comp_update Slot.cell ..

theorem cells_setData {data₀ : CStr} (hlive : htab.cells idx = .live key data₀) (data : CStr) :
    (htab.modifyEntry idx fun e => { e with data := data }).cells = update htab.cells idx
    (.live key data) := by
  have hslot := (Slot.cell_eq_live ..).mp hlive
  refine (comp_update Slot.cell ..).trans (congrArg _ ?_)
  exact (Slot.cell_eq_live ..).mpr ⟨hslot.1, hslot.2.1, rfl⟩

variable (hr : Rep htab m)
include hr

/-- One slot of the table changes, and the map with it. -/
theorem Rep.of_update {m' : CStr → Option CStr} {slot : Slot κ} {n : ℕ} {c : Cell CStr CStr}
    (hcells : Htab.cells { htab with table := update htab.table idx slot, filled := n } =
    update htab.cells idx c)
    (hhash : ∀ key data, c = .live key data → slot.used = intOfU32 (firstIndex htab.size key))
    (hstores : (probeOrder hr.sized).Represents (update htab.cells idx c) m')
    (hfilled : n = (probeOrder hr.sized).liveCount (update htab.cells idx c)) :
    Rep { htab with table := update htab.table idx slot, filled := n } m' where
  sized := hr.sized
  hash i hi key data hlive := by
    rw [hcells] at hlive
    dsimp only
    by_cases hij : i = idx
    · subst hij
      rw [update_self] at hlive ⊢
      exact hhash key data hlive
    · rw [update_of_ne hij] at hlive ⊢
      exact hr.hash i hi key data hlive
  stores := hcells ▸ hstores
  filled := hcells ▸ hfilled

/-- Storing an absent key in a free slot of its probe order. -/
theorem Rep.store (hk : m key = none) (hv : (probeOrder hr.sized).Vacant htab.cells key idx)
    (data : CStr) : Rep (htab.store idx (firstIndex htab.size key) key data)
    (update m key (some data)) := by
  refine hr.of_update (cells_store hr.sized idx key data) ?_ (hr.stores.insert hk hv data) ?_
  · rintro _ _ ⟨⟩
    rfl
  · exact (congrArg (· + 1) hr.filled).trans (ProbeOrder.liveCount_insert hv.mem hv.free key data).symm

variable (hi : idx ∈ (probeOrder hr.sized).slots)
include hi

/-- Deleting the entry of a key. -/
theorem Rep.hdelete (hlive : htab.cells idx = .live key data) :
    Rep (htab.hdelete idx) (update m key none) := by
  refine hr.of_update (cells_hdelete idx) nofun (hr.stores.delete hi hlive) ?_
  have hcount := ProbeOrder.liveCount_delete hi hlive
  have hfilled := hr.filled
  omega

/-- Overwriting the data of a key. -/
theorem Rep.setData {data₀ : CStr} (hlive : htab.cells idx = .live key data₀) (data : CStr) :
    Rep (htab.modifyEntry idx fun e => { e with data := data }) (update m key (some data)) := by
  refine hr.of_update (cells_setData hlive data) ?_ (hr.stores.replace hi hlive data) ?_
  · rintro _ _ ⟨⟩
    exact hr.hash idx hi key data₀ hlive
  · exact hr.filled.trans (ProbeOrder.liveCount_replace hi hlive data).symm

end Changes

/-! ## One call -/

section Calls

variable {κ γ : Type} {hk : Hooks κ γ} {m : CStr → Option CStr}

/-- Hooks that change at most callbacks and flags of the entries. -/
structure Hooks.Benign (hk : Hooks κ γ) : Prop where
  callback : ∀ c key newval op flag s, SameLayout s.htab (hk.callback c key newval op flag s).1.htab
  callbackInit : ∀ idx s, SameLayout s.htab (hk.callbackInit idx s).htab
  flagsInit : ∀ idx s, SameLayout s.htab (hk.flagsInit idx s).htab

theorem Hooks.Benign.runCallback (hb : hk.Benign) (cb : Option κ) (key : CStr)
    (newval : Option CStr) (op : EnvOp) (flag : ℕ) (s : State κ γ) :
    SameLayout s.htab (hk.runCallback cb key newval op flag s).1.htab := by
  cases cb with
  | none => exact .refl _
  | some c => exact hb.callback c key newval op flag s

/-- The states in which `hsearch_r` enters a new key over a live entry: the key is absent, the table
is not full, no slot is never-used, and the first slot of the key is not a deleted one. -/
def ReusesLiveSlot (htab : Htab κ) (key : CStr) : Prop :=
  htab.filled ≠ htab.size ∧
    (∀ i ∈ Finset.Icc 1 htab.size, (htab.table i).used ≠ 0 ∧
    ¬ (htab.table i).holds (firstIndex htab.size key) key) ∧
    (htab.table (firstIndex htab.size key)).used ≠ -1

instance (htab : Htab κ) (key : CStr) : Decidable (ReusesLiveSlot htab key) :=
  inferInstanceAs (Decidable (_ ∧ _))

/-- Outside those states the slot chosen for a new key is free and reachable. -/
theorem Rep.vacant {htab : Htab κ} (hr : Rep htab m) (hk : m key = none)
    (hbucket : IsBucket hr.sized key idx) (hfull : htab.filled ≠ htab.size)
    (hsafe : ¬ ReusesLiveSlot htab key) :
    (probeOrder hr.sized).Vacant htab.cells key
      (if firstDeleted htab key ≠ 0 then firstDeleted htab key else idx) := by
  have hfirst := hr.sized.firstIndex_mem key
  have hpos : 0 < htab.size := by have := hr.sized.three_le; omega
  by_cases hdel : (htab.table (firstIndex htab.size key)).used = -1
  · have hfd : firstDeleted htab key = firstIndex htab.size key := if_pos hdel
    rw [hfd, if_pos (by omega)]
    refine ⟨firstIndex_mem_slots hr.sized key, (Slot.isLive_cell _).mpr (.inr hdel),
      fun j hj heq l hl => ?_⟩
    have hzero : j = 0 := (probeOrder hr.sized).seq_inj key j 0 hj hpos heq
    omega
  · have hfd : firstDeleted htab key = 0 := if_neg hdel
    rw [hfd, if_neg (by simp)]
    rcases hbucket with ⟨j, hj, rfl, hempty, hreach⟩ | ⟨rfl, hused⟩
    · refine ⟨(probeOrder hr.sized).seq_mem key j hj, by rw [hempty]; rfl, fun j' hj' heq => ?_⟩
      rw [(probeOrder hr.sized).seq_inj key j' j hj' hj heq]
      exact hreach
    · refine absurd ⟨hfull, ?_, hdel⟩ hsafe
      intro i hi
      refine ⟨fun h0 => hused i hi ((Slot.cell_eq_empty _).mpr h0), fun hhold => ?_⟩
      have := hr.stores.get_of_live hi (Slot.cell_of_holds hr.sized hhold)
      rw [hk] at this
      cases this

variable {s : State κ γ}

/-! ### What the hooks leave -/

/-- Hooks that reject nothing. -/
structure Hooks.Permissive (hk : Hooks κ γ) : Prop extends hk.Benign where
  permits : ∀ e newval op flag, hk.denies e newval op flag = false
  accepts : ∀ c key newval op flag s, (hk.callback c key newval op flag s).2 = false

theorem noHooks_permissive : noHooks.Permissive where
  callback c := c.elim
  callbackInit _ _ := .refl _
  flagsInit _ _ := .refl _
  permits _ _ _ _ := rfl
  accepts c := c.elim

theorem Hooks.Permissive.runCallback_accepts (hp : hk.Permissive) (cb : Option κ)
    (key : CStr) (newval : Option CStr) (op : EnvOp) (flag : ℕ) (s : State κ γ) :
    (hk.runCallback cb key newval op flag s).2 = false := by
  cases cb with
  | none => rfl
  | some c => exact hp.accepts c key newval op flag s

/-- A change of the table was made, or a hook rejected it and it was undone. -/
def Settles (hk : Hooks κ γ) (ok : Result) (done undone : Htab κ) (r : State κ γ × Result) : Prop :=
  r.2 = ok ∧ r.1.htab = done ∨ ¬ hk.Permissive ∧ r.1.htab = undone ∧ ∃ e, r.2 = .failed e ∧
    e ≠ .esrch ∧ e ≠ .enomem

variable {ok : Result} {done undone : Htab κ} {r : State κ γ × Result}

theorem Settles.of_permissive (h : Settles hk ok done undone r) (hp : hk.Permissive) :
    r.2 = ok ∧ r.1.htab = done :=
  h.resolve_right fun hrej => hrej.1 hp

theorem Settles.size_eq {n : ℕ} (h : Settles hk ok done undone r) (hdone : done.size = n)
    (hundone : undone.size = n) : r.1.htab.size = n := by
  rcases h with ⟨-, heq⟩ | ⟨-, heq, -⟩
  · rw [heq, hdone]
  · rw [heq, hundone]

/-- The two hooks that can reject a change, asked one after the other. -/
theorem Hooks.Benign.settles (hb : hk.Benign) (e : Entry κ) (key : CStr) (newval : Option CStr)
    (op : EnvOp) (flag : ℕ) (s : State κ γ) (ok : Result) (done undone : Htab κ → Htab κ) :
    let r := hk.runCallback e.callback key newval op flag s
    ∃ h', SameLayout s.htab h' ∧ Settles hk ok (done h') (undone h')
      (if hk.denies e newval op flag then ({ s with htab := undone s.htab }, .failed .eperm)
      else if r.2 then ({ r.1 with htab := undone r.1.htab }, .failed .einval)
      else ({ r.1 with htab := done r.1.htab }, ok)) := by
  intro r
  by_cases hden : hk.denies e newval op flag = true
  · rw [if_pos hden]
    refine ⟨s.htab, .refl _, .inr ⟨fun hp => ?_, rfl, .eperm, rfl, by decide, by decide⟩⟩
    rw [hp.permits] at hden
    cases hden
  · rw [if_neg hden]
    refine ⟨r.1.htab, hb.runCallback .., ?_⟩
    by_cases hrej : r.2 = true
    · rw [if_pos hrej]
      refine .inr ⟨fun hp => ?_, rfl, .einval, rfl, by decide, by decide⟩
      rw [hp.runCallback_accepts] at hrej
      cases hrej
    · rw [if_neg hrej]
      exact .inl ⟨rfl, rfl⟩

theorem overwriteEntry_settles (hb : hk.Benign) (key data : CStr) (flag idx : ℕ) (s : State κ γ) :
    ∃ h', SameLayout s.htab h' ∧ Settles hk (.found idx)
        (h'.modifyEntry idx fun e => { e with data := data }) h'
        (overwriteEntry hk key (.enter data) flag idx s) :=
  hb.settles (s.htab.table idx).entry key (some data) .overwrite flag s (.found idx)
    (fun h => h.modifyEntry idx fun e => { e with data := data }) id

theorem createEntry_settles (hb : hk.Benign) (key data : CStr) (flag idx : ℕ) (s : State κ γ) :
    ∃ h', SameLayout (s.htab.store idx (firstIndex s.htab.size key) key data) h' ∧
      Settles hk (.created idx) h' (h'.hdelete idx) (createEntry hk key data flag idx s) := by
  set s₁ : State κ γ := { s with htab := s.htab.store idx (firstIndex s.htab.size key) key data }
  set s₂ := hk.flagsInit idx (hk.callbackInit idx s₁)
  have hl₂ : SameLayout s₁.htab s₂.htab := (hb.callbackInit idx s₁).trans (hb.flagsInit idx _)
  obtain ⟨h', hl, hset⟩ :=
    hb.settles (s₂.htab.table idx).entry key (some data) .create flag s₂ (.created idx) id (·.hdelete idx)
  exact ⟨h', hl₂.trans hl, hset⟩

/-- With permissive hooks a new entry stays where it was put. -/
theorem createEntry_permissive (hp : hk.Permissive) (key data : CStr)
    (flag idx : ℕ) (s : State κ γ) : (createEntry hk key data flag idx s).2 = .created idx ∧
      SameLayout (s.htab.store idx (firstIndex s.htab.size key) key data)
        (createEntry hk key data flag idx s).1.htab := by
  obtain ⟨h', hl, hset⟩ := createEntry_settles hp.toBenign key data flag idx s
  obtain ⟨hres, heq⟩ := hset.of_permissive hp
  exact ⟨hres, heq ▸ hl⟩

theorem hdeleteR_of_bucket (hloc : locate s.htab key = .bucket idx) (flag : ℕ) :
    hdeleteR hk key flag s = (s, .failed .esrch) := by
  simp only [hdeleteR, hsearchR, hloc]

theorem hdeleteR_settles (hb : hk.Benign) (hloc : locate s.htab key = .entry idx) (flag : ℕ) :
    ∃ h', SameLayout s.htab h' ∧ Settles hk (.found idx) (h'.hdelete idx) h' (hdeleteR hk key flag s) := by
  simp only [hdeleteR, hsearchR, hloc]
  exact hb.settles (s.htab.table idx).entry key none .delete flag s (.found idx) (·.hdelete idx) id

/-- Searching does not change the size of the table. -/
theorem hsearchR_size (hb : hk.Benign) (key : CStr) (action : Action) (flag : ℕ) (s : State κ γ) :
    (hsearchR hk key action flag s).1.htab.size = s.htab.size := by
  simp only [hsearchR]
  cases locate s.htab key with
  | hang => rfl
  | entry idx =>
    cases action with
    | find => rfl
    | enter data =>
      obtain ⟨h', hl, hset⟩ := overwriteEntry_settles hb key data flag idx s
      exact hset.size_eq hl.size hl.size
  | bucket idx =>
    cases action with
    | find => rfl
    | enter data =>
      dsimp only
      split
      · rfl
      · obtain ⟨h', hl, hset⟩ := createEntry_settles hb key data flag _ s
        exact hset.size_eq hl.size hl.size

/-- Deleting does not change the size of the table. -/
theorem hdeleteR_size (hb : hk.Benign) (key : CStr) (flag : ℕ) (s : State κ γ) :
    (hdeleteR hk key flag s).1.htab.size = s.htab.size := by
  cases hloc : locate s.htab key with
  | hang => simp only [hdeleteR, hsearchR, hloc]
  | bucket idx => rw [hdeleteR_of_bucket hloc]
  | entry idx =>
    obtain ⟨h', hl, hset⟩ := hdeleteR_settles hb hloc flag
    exact hset.size_eq hl.size hl.size

/-! ### What a call does to the map -/

/-- The effect of `createEntry` on a free slot. -/
theorem createEntry_spec (hb : hk.Benign) (hr : Rep s.htab m) (hkey : m key = none)
    (hv : (probeOrder hr.sized).Vacant s.htab.cells key idx) (data : CStr) (flag : ℕ) :
    let r := createEntry hk key data flag idx s
    (r.2 = .created idx ∧ Rep r.1.htab (update m key (some data))) ∨
      Rep r.1.htab m ∧ ∃ e, r.2 = .failed e ∧ e ≠ .enomem := by
  obtain ⟨h', hl, hset⟩ := createEntry_settles hb key data flag idx s
  have hstored := (hr.store hkey hv data).of_sameLayout hl
  rcases hset with ⟨hres, heq⟩ | ⟨-, heq, e, hres, -, hne⟩
  · refine .inl ⟨hres, ?_⟩
    rw [heq]
    exact hstored
  · -- the entry is taken out again
    have hlive : h'.cells idx = .live key data := by
      rw [hl.cells_eq, cells_store hr.sized, update_self]
    have hd := hstored.hdelete (hl.mem_slots hv.mem) hlive
    rw [update_idem, update_eq_self_iff.mpr hkey.symm, ← heq] at hd
    exact .inr ⟨hd, e, hres, hne⟩

/-- The effect of `hsearch_r` with action `ENTER`: a rejected change leaves the map as it was. -/
theorem hsearchR_enter (hb : hk.Benign) (hr : Rep s.htab m) (key data : CStr)
    (flag : ℕ) (hsafe : ¬ ReusesLiveSlot s.htab key) :
    let r := hsearchR hk key (.enter data) flag s
    (∃ idx, r.2 = .found idx ∧ m key ≠ none ∧ Rep r.1.htab (update m key (some data))) ∨
      (∃ idx, r.2 = .created idx ∧ s.htab.filled ≠ s.htab.size ∧ Rep r.1.htab (update m key (some data))) ∨
      ∃ e, r.2 = .failed e ∧ Rep r.1.htab m ∧
        (e = .enomem → m key = none ∧ s.htab.filled = s.htab.size) := by
  rcases hr.locate_cases key with ⟨idx, hloc, hmem, hlive, hsome⟩ | ⟨idx, hloc, hnone, hbucket⟩
  · simp only [hsearchR, hloc]
    obtain ⟨h', hl, ⟨hres, heq⟩ | ⟨-, heq, e, hres, -, hne⟩⟩ :=
        overwriteEntry_settles hb key data flag idx s
    · rw [heq]
      rw [← hl.cells_eq] at hlive
      exact .inl ⟨idx, hres, by rw [hsome]; simp,
        (hr.of_sameLayout hl).setData (hl.mem_slots hmem) hlive data⟩
    · rw [heq]
      exact .inr (.inr ⟨e, hres, hr.of_sameLayout hl, fun h => absurd h hne⟩)
  · simp only [hsearchR, hloc]
    by_cases hfull : s.htab.filled = s.htab.size
    · rw [if_pos hfull]
      exact .inr (.inr ⟨_, rfl, hr, fun _ => ⟨hnone, hfull⟩⟩)
    rw [if_neg hfull]
    have hv := hr.vacant hnone hbucket hfull hsafe
    rcases createEntry_spec hb hr hnone hv data flag with ⟨hres, hrep⟩ | ⟨hrep, e, hres, hne⟩
    · exact .inr (.inl ⟨_, hres, hfull, hrep⟩)
    · exact .inr (.inr ⟨e, hres, hrep, fun h => absurd h hne⟩)

/-- The effect of `hsearch_r` with action `FIND`. -/
theorem hsearchR_find (hk : Hooks κ γ) (hr : Rep s.htab m) (key : CStr) (flag : ℕ) :
    (m key = none ∧ hsearchR hk key .find flag s = (s, .failed .esrch)) ∨
      ∃ idx, hsearchR hk key .find flag s = (s, .found idx) ∧ idx ∈ (probeOrder hr.sized).slots ∧
        s.htab.cells idx = .live key (s.htab.table idx).entry.data ∧
        m key = some (s.htab.table idx).entry.data := by
  rcases hr.locate_cases key with ⟨idx, hloc, hentry⟩ | ⟨idx, hloc, hnone, -⟩
  · exact .inr ⟨idx, by rw [hsearchR, hloc]; rfl, hentry⟩
  · exact .inl ⟨hnone, by rw [hsearchR, hloc]⟩

/-- The effect of `hdelete_r`. -/
theorem hdeleteR_spec (hb : hk.Benign) (hr : Rep s.htab m) (key : CStr) (flag : ℕ) :
    let r := hdeleteR hk key flag s
    (∃ idx, r.2 = .found idx ∧ Rep r.1.htab (update m key none)) ∨
      ∃ e, r.2 = .failed e ∧ Rep r.1.htab m ∧ (e = .esrch → m key = none) := by
  intro r
  rcases hr.locate_cases key with ⟨idx, hloc, hmem, hlive, -⟩ | ⟨idx, hloc, hnone, -⟩
  · obtain ⟨h', hl, ⟨hres, heq⟩ | ⟨-, heq, e, hres, hne, -⟩⟩ := hdeleteR_settles hb hloc flag
    · rw [heq]
      rw [← hl.cells_eq] at hlive
      exact .inl ⟨idx, hres, (hr.of_sameLayout hl).hdelete (hl.mem_slots hmem) hlive⟩
    · rw [heq]
      exact .inr ⟨e, hres, hr.of_sameLayout hl, fun h => absurd h hne⟩
  · simp only [r, hdeleteR_of_bucket hloc]
    exact .inr ⟨_, rfl, hr, fun _ => hnone⟩

/-- With permissive hooks an `ENTER` fails only for want of room. -/
theorem hsearchR_enter_failed (hp : hk.Permissive) {flag : ℕ} {e : Errno}
    (h : (hsearchR hk key (.enter data) flag s).2 = .failed e) : e = .enomem := by
  simp only [hsearchR] at h
  split at h
  · cases h
  · next idx _ =>
    obtain ⟨h', -, hset⟩ := overwriteEntry_settles hp.toBenign key data flag idx s
    rw [(hset.of_permissive hp).1] at h
    cases h
  · split at h
    · exact (Result.failed.inj h).symm
    · rw [(createEntry_permissive hp key data flag _ s).1] at h
      cases h

/-- With permissive hooks an `hdelete_r` fails only for want of an entry. -/
theorem hdeleteR_failed (hp : hk.Permissive) {flag : ℕ} {e : Errno}
    (h : (hdeleteR hk key flag s).2 = .failed e) : e = .esrch := by
  cases hloc : locate s.htab key with
  | hang =>
    simp only [hdeleteR, hsearchR, hloc] at h
    cases h
  | bucket idx =>
    rw [hdeleteR_of_bucket hloc] at h
    exact (Result.failed.inj h).symm
  | entry idx =>
    obtain ⟨h', -, hset⟩ := hdeleteR_settles hp.toBenign hloc flag
    rw [(hset.of_permissive hp).1] at h
    cases h

end Calls

end UBoot.Env
