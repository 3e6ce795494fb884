import UBoot.Env.AttrLookup
import UBoot.Env.Flags
import UBoot.Env.HashtableSize

/-!
# The flags follow the lists

In every run in which no variable is created while the list cached by `env_flags_init` differs, for
the name of that variable, from the current value of `.flags`, or while the list cached by
`env_callback_init` gives it a callback that changes the table, unless it is `.flags` with
`on_flags`, the flags of all live variables are the ones their attributes in the lists ask for.
-/

namespace UBoot.Env

open UBoot.Common List Function

variable {l : List UInt8} {c : UInt8} {name : CStr} {j : ℕ}

/-! ## Names in a list -/

theorem mem_of_mem_splitOn {entry : List UInt8} (h : entry ∈ l.splitOn 44) (hc : c ∈ entry) :
    c ∈ l := by
  obtain ⟨i, hi⟩ := mem_iff_getElem?.mp h
  have hmem : c ∈ [44].intercalate (l.splitOn 44) :=
    mem_flatten.mpr ⟨entry, mem_of_getElem? (getElem?_intersperse_two_mul.trans hi), hc⟩
  rwa [intercalate_splitOn] at hmem

variable {e : List UInt8 × Option (List UInt8)} {idx : ℕ} {key data : CStr}

/-- The names passed by `env_attr_walk` are strings. -/
theorem nul_notMem_of_mem_attrEntries (hl : 0 ∉ l) (he : e ∈ attrEntries l) : 0 ∉ e.1 := by
  obtain ⟨entry, hentry, heq⟩ := mem_filterMap.mp he
  simp only [attrEntry] at heq
  split at heq
  · injection heq with heq
    rw [← heq]
    intro h0
    have hpre := rdropWhile_prefix isspace (dropWhile isspace (entry.takeWhile (· ≠ 58)))
    have hstrip := (dropWhile_sublist _).mem (hpre.subset h0)
    exact hl (mem_of_mem_splitOn hentry ((takeWhile_sublist _).mem hstrip))
  · cases heq

/-! ## Tables with flags -/

/-- Only `.flags` has the callback `on_flags`, and no variable has `on_callbacks`. -/
def Bound (key : CStr) (callback : Option EnvCallback) : Prop :=
  (callback = some .onFlags ↔ key = flagsVar) ∧ callback ≠ some .onCallbacks

instance (key : CStr) (callback : Option EnvCallback) : Decidable (Bound key callback) :=
  inferInstanceAs (Decidable (_ ∧ _))

/-- A table that stores a map, in which every live entry has a callback of its own and flags that
are `ok`, and every other slot has neither. -/
structure Marked (ok : ℕ → CStr → ℕ → Prop) (m : CStr → Option CStr) (htab : Htab EnvCallback) :
    Prop where
  rep : Rep htab m
  small : htab.size < 2 ^ 31
  live : ∀ i ∈ Finset.Icc 1 htab.size, ∀ key data, htab.cells i = .live key data →
    Bound key (htab.table i).entry.callback ∧ ok i key (htab.table i).entry.flags
  free : ∀ i ∈ Finset.Icc 1 htab.size, (htab.cells i).isLive = false →
    (htab.table i).entry.callback = none ∧ (htab.table i).entry.flags = 0

/-- All flags are those of a list. -/
def Tracks (list : Option CStr) (_ : ℕ) (key : CStr) (flags : ℕ) : Prop := flags = flagsOf list key

section Marked

variable {ok ok' : ℕ → CStr → ℕ → Prop} {m : CStr → Option CStr} {htab htab' : Htab EnvCallback}

/-- In a table of this size `used` is positive exactly in live slots. -/
theorem Rep.used_pos_iff (hr : Rep htab m) (hsmall : htab.size < 2 ^ 31) {i : ℕ}
    (hi : i ∈ Finset.Icc 1 htab.size) : (htab.table i).used > 0 ↔
    htab.cells i = .live (htab.table i).entry.key (htab.table i).entry.data := by
  constructor
  · intro h
    exact (Slot.cell_eq_live _ _ _).mpr ⟨⟨by omega, by omega⟩, rfl, rfl⟩
  · intro h
    have hused := hr.hash i hi _ _ h
    have hmem := hr.sized.firstIndex_mem (htab.table i).entry.key
    rw [hused, intOfU32]
    omega

/-- The callbacks of two tables are the same. -/
def SameCallbacks (htab htab' : Htab EnvCallback) : Prop :=
  ∀ i, (htab'.table i).entry.callback = (htab.table i).entry.callback

/-- A change of callback or flags keeps the layout. -/
theorem sameLayout_modifyEntry (htab : Htab EnvCallback) (idx : ℕ)
    (f : Entry EnvCallback → Entry EnvCallback) (hf : ∀ e, (f e).key = e.key ∧ (f e).data = e.data) :
    SameLayout htab (htab.modifyEntry idx f) := by
  refine ⟨rfl, rfl, ?_, ?_, ?_⟩
  all_goals
    intro i
    by_cases hi : i = idx
    · subst hi
      simp [Htab.modifyEntry, hf]
    · simp [Htab.modifyEntry, update_of_ne hi]

theorem modifyEntry_eq_self {f : Entry EnvCallback → Entry EnvCallback}
    (h : f (htab.table idx).entry = (htab.table idx).entry) : htab.modifyEntry idx f = htab := by
  simp only [Htab.modifyEntry, h, update_eq_self]

section

variable (h : Marked ok m htab)

include h

/-- One slot changes; the others keep their callbacks and flags. -/
theorem Marked.change {m' : CStr → Option CStr} {c : Cell CStr CStr}
    (hr : Rep htab' m') (hsize : htab'.size = htab.size)
    (hcells : htab'.cells = update htab.cells idx c)
    (hother : ∀ i ≠ idx, (htab'.table i).entry.callback = (htab.table i).entry.callback ∧
      (htab'.table i).entry.flags = (htab.table i).entry.flags)
    (hok : ∀ i key flags, i ≠ idx → ok i key flags → ok' i key flags)
    (hlive : ∀ key data, c = .live key data →
      Bound key (htab'.table idx).entry.callback ∧ ok' idx key (htab'.table idx).entry.flags)
    (hfree : c.isLive = false → (htab'.table idx).entry.callback = none ∧
      (htab'.table idx).entry.flags = 0) :
    Marked ok' m' htab' where
  rep := hr
  small := hsize ▸ h.small
  live i hi key data hl := by
    rw [hcells] at hl
    by_cases hidx : i = idx
    · subst hidx
      rw [update_self] at hl
      exact hlive key data hl
    · rw [update_of_ne hidx] at hl
      obtain ⟨hcb, hflags⟩ := h.live i (hsize ▸ hi) key data hl
      rw [(hother i hidx).1, (hother i hidx).2]
      exact ⟨hcb, hok i key _ hidx hflags⟩
  free i hi hnl := by
    rw [hcells] at hnl
    by_cases hidx : i = idx
    · subst hidx
      rw [update_self] at hnl
      exact hfree hnl
    · rw [update_of_ne hidx] at hnl
      rw [(hother i hidx).1, (hother i hidx).2]
      exact h.free i (hsize ▸ hi) hnl

/-- Deleting the entry of a key; its own flags do not matter. -/
theorem Marked.hdelete (hi : idx ∈ Finset.Icc 1 htab.size) (hlive : htab.cells idx = .live key data)
    (hok : ∀ i key flags, i ≠ idx → ok i key flags → ok' i key flags) :
    Marked ok' (update m key none) (htab.hdelete idx) := by
  refine h.change (h.rep.hdelete hi hlive) rfl (cells_hdelete ..) (fun i hidx => ?_) hok
    (by simp) fun _ => ?_
  · simp only [Htab.hdelete, update_of_ne hidx]
    trivial
  · simp only [Htab.hdelete, update_self]
    trivial

/-- Overwriting the data of a key. -/
theorem Marked.setData (hi : idx ∈ Finset.Icc 1 htab.size) {data₀ : CStr}
    (hlive : htab.cells idx = .live key data₀) (data : CStr) :
    Marked ok (update m key (some data)) (htab.modifyEntry idx fun e => { e with data := data }) := by
  refine h.change (h.rep.setData hi hlive data) rfl (cells_setData hlive ..) (fun i hidx => ?_)
    (fun _ _ _ _ hok => hok) (fun key' data' heq => ?_) (by simp [Cell.isLive])
  · simp only [Htab.modifyEntry, update_of_ne hidx]
    trivial
  · injection heq with hkey _
    subst hkey
    simp only [Htab.modifyEntry, update_self]
    exact h.live idx hi key data₀ hlive

end

/-! ## `on_flags` -/

/-- The flags of live slots change as `f` says, and nothing else does. -/
structure Reflagged (htab htab' : Htab EnvCallback) (f : CStr → ℕ → ℕ) : Prop where
  layout : SameLayout htab htab'
  callbacks : SameCallbacks htab htab'
  live : ∀ i ∈ Finset.Icc 1 htab.size, ∀ key data, htab.cells i = .live key data →
    (htab'.table i).entry.flags = f key (htab.table i).entry.flags
  free : ∀ i ∈ Finset.Icc 1 htab.size, (htab.cells i).isLive = false →
    (htab'.table i).entry.flags = (htab.table i).entry.flags

theorem Reflagged.trans {h₁ h₂ h₃ : Htab EnvCallback} {f g : CStr → ℕ → ℕ}
    (a : Reflagged h₁ h₂ f) (b : Reflagged h₂ h₃ g) :
    Reflagged h₁ h₃ fun key flags => g key (f key flags) where
  layout := a.layout.trans b.layout
  callbacks i := (b.callbacks i).trans (a.callbacks i)
  live i hi key data hlive := by
    have hb := b.live i (by rw [a.layout.size]; exact hi) key data (by rw [a.layout.cells_eq, hlive])
    rw [hb, a.live i hi key data hlive]
  free i hi hnl := by
    have hb := b.free i (by rw [a.layout.size]; exact hi) (by rw [a.layout.cells_eq, hnl])
    rw [hb, a.free i hi hnl]

/-- Changing the flags of one entry. -/
theorem reflagged_modifyEntry (hr : Rep htab m) (hi : idx ∈ Finset.Icc 1 htab.size)
    (hlive : htab.cells idx = .live name data) (flags : ℕ) :
    Reflagged htab (htab.modifyEntry idx fun e => { e with flags := flags })
      fun key old => if key = name then flags else old where
  layout := sameLayout_modifyEntry _ _ _ fun _ => ⟨rfl, rfl⟩
  callbacks i := by
    by_cases hidx : i = idx
    · subst hidx
      simp [Htab.modifyEntry]
    · simp [Htab.modifyEntry, update_of_ne hidx]
  live i hi' key data' hlive' := by
    by_cases hidx : i = idx
    · subst hidx
      rw [hlive] at hlive'
      injection hlive' with hkey _
      simp [Htab.modifyEntry, hkey]
    · have hne : key ≠ name := by
        rintro rfl
        exact hidx (hr.stores.unique key data' data i idx hi' hi hlive' hlive)
      simp [Htab.modifyEntry, update_of_ne hidx, hne]
  free i hi' hnl := by
    have hidx : i ≠ idx := by
      rintro rfl
      rw [hlive] at hnl
      exact absurd hnl (by simp [Cell.isLive])
    simp [Htab.modifyEntry, update_of_ne hidx]

theorem Reflagged.refl (htab : Htab EnvCallback) : Reflagged htab htab fun _ old => old :=
  ⟨.refl _, fun _ => rfl, fun _ _ _ _ _ => rfl, fun _ _ _ => rfl⟩

theorem Reflagged.congr {f g : CStr → ℕ → ℕ} (h : Reflagged htab htab' f)
    (hfg : ∀ i ∈ Finset.Icc 1 htab.size, ∀ key data, htab.cells i = .live key data →
      ∀ old, f key old = g key old) : Reflagged htab htab' g :=
  ⟨h.layout, h.callbacks,
    fun i hi key data hlive => (h.live i hi key data hlive).trans (hfg i hi key data hlive _), h.free⟩

/-- A change of flags in live slots keeps everything but `ok`. -/
theorem Marked.reflag {f : CStr → ℕ → ℕ} (h : Marked ok m htab) (hf : Reflagged htab htab' f)
    (hok : ∀ i ∈ Finset.Icc 1 htab.size, ∀ key data, htab.cells i = .live key data →
      ok' i key (f key (htab.table i).entry.flags)) : Marked ok' m htab' where
  rep := h.rep.of_sameLayout hf.layout
  small := by
    rw [hf.layout.size]
    exact h.small
  live i hi key data hlive := by
    rw [hf.layout.size] at hi
    rw [hf.layout.cells_eq] at hlive
    rw [hf.callbacks, hf.live i hi key data hlive]
    exact ⟨(h.live i hi key data hlive).1, hok i hi key data hlive⟩
  free i hi hnl := by
    rw [hf.layout.size] at hi
    rw [hf.layout.cells_eq] at hnl
    rw [hf.callbacks, hf.free i hi hnl]
    exact h.free i hi hnl

/-- `set_flags` sets the flags of the named entry, if there is one. -/
theorem setFlags_spec (hr : Rep htab m) (he : 0 ∉ e.1) :
    Reflagged htab (setFlags htab e) fun key old => if e.1 = key.bytes then
    encodeAttributes e.2 else old := by
  set name : CStr := ⟨e.1, he⟩
  have hof : CStr.ofBytes e.1 = name := name.ofBytes_bytes
  rw [setFlags, hof]
  rcases hr.locate_cases name with ⟨idx, hloc, hmem, hlive, -⟩ | ⟨idx, hloc, hnone, -⟩
  · rw [hloc]
    refine (reflagged_modifyEntry hr hmem hlive _).congr fun i hi key data hlive old => ?_
    have hiff : key = name ↔ e.1 = key.bytes := ⟨fun h => by rw [h], fun h => (CStr.ext h).symm⟩
    simp only [hiff]
  · rw [hloc]
    refine (Reflagged.refl htab).congr fun i hi key data hlive old => ?_
    have hne : e.1 ≠ key.bytes := by
      intro h
      have hkey : key = name := (CStr.ext h).symm
      have hsome := hr.stores.get_of_live hi hlive
      rw [hkey, hnone] at hsome
      cases hsome
    rw [if_neg hne]

/-- Going through a list of attributes sets the flags of every entry it names to its last ones. -/
theorem foldl_setFlags_spec {es : List (List UInt8 × Option (List UInt8))} (hr : Rep htab m)
    (hes : ∀ e ∈ es, 0 ∉ e.1) : Reflagged htab (es.foldl setFlags htab)
      fun key old => ((lastAttributes es key.bytes).map encodeAttributes).getD old := by
  induction es generalizing htab with
  | nil => exact .refl htab
  | cons e es ih =>
    have hstep := setFlags_spec hr (hes e mem_cons_self)
    have hrest := ih (hr.of_sameLayout hstep.layout) (forall_mem_cons.mp hes).2
    refine (hstep.trans hrest).congr fun i hi key data hlive old => ?_
    rw [← singleton_append, lastAttributes_append]
    cases lastAttributes es key.bytes with
    | some a => rfl
    | none => by_cases h : e.1 = key.bytes <;> simp [lastAttributes, h]

/-- `hwalk_r` with `clear_flags`. -/
theorem hwalk_clearFlags_spec (hr : Rep htab m) (hsmall : htab.size < 2 ^ 31) :
    Reflagged htab (hwalk htab clearFlags) fun _ _ => 0 where
  layout := by
    constructor
    · rfl
    · rfl
    all_goals
      intro i
      simp only [hwalk]
      split <;> rfl
  callbacks i := by
    simp only [hwalk]
    split <;> rfl
  live i hi key data hlive := by
    obtain ⟨-, rfl, rfl⟩ := (Slot.cell_eq_live _ _ _).mp hlive
    have hused := (hr.used_pos_iff hsmall hi).mpr hlive
    have hmem := Finset.mem_Icc.mp hi
    simp only [hwalk, hmem.1, hmem.2, hused]
    rfl
  free i hi hnl := by
    have hused : ¬ (htab.table i).used > 0 := by
      rcases (Slot.isLive_cell _).mp hnl with h | h <;> omega
    simp only [hwalk, hused, and_false, if_false]

/-- `on_flags` sets the flags of all live entries to those of the lists. -/
theorem onFlags_spec (h : Marked ok m htab) (value : Option CStr) :
    SameLayout htab (onFlags htab value) ∧ Marked (Tracks value) m (onFlags htab value) := by
  have hclear := hwalk_clearFlags_spec h.rep h.small
  have hr₁ := h.rep.of_sameLayout hclear.layout
  have hstatic : Reflagged (hwalk htab clearFlags)
      ((attrEntries flagsListStatic).foldl setFlags (hwalk htab clearFlags)) _ :=
    foldl_setFlags_spec hr₁ fun e he => nul_notMem_of_mem_attrEntries (by decide) he
  have hboth := hclear.trans hstatic
  rcases value with _ | l
  · refine ⟨hboth.layout, h.reflag hboth fun i hi key data hlive => ?_⟩
    rw [Tracks, flagsOf, listedAttributes, Option.bind_none, Option.none_or]
  have hr₂ := h.rep.of_sameLayout hboth.layout
  have hall := hboth.trans (foldl_setFlags_spec hr₂ fun e he =>
    nul_notMem_of_mem_attrEntries l.nul_free he)
  refine ⟨hall.layout, h.reflag hall fun i hi key data hlive => ?_⟩
  rw [Tracks, flagsOf, listedAttributes, Option.bind_some]
  cases lastAttributes (attrEntries l.bytes) key.bytes with
  | some a => rfl
  | none => cases lastAttributes (attrEntries flagsListStatic) key.bytes <;> rfl

/-- Putting a new entry into a free slot, with its callback; its flags are left open. -/
theorem Marked.create (h : Marked ok m htab) (hkey : m key = none)
    (hv : (probeOrder h.rep.sized).Vacant htab.cells key idx)
    (hl : SameLayout (htab.store idx (firstIndex htab.size key) key data) htab')
    (hother : ∀ i ≠ idx, (htab'.table i).entry.callback = (htab.table i).entry.callback ∧
        (htab'.table i).entry.flags = (htab.table i).entry.flags)
    (hcb : Bound key (htab'.table idx).entry.callback) :
    Marked (fun i k flags => i = idx ∨ ok i k flags) (update m key (some data)) htab' := by
  have hcells : htab'.cells = update htab.cells idx (.live key data) := by
    rw [hl.cells_eq, cells_store h.rep.sized]
  refine h.change ((h.rep.store hkey hv data).of_sameLayout hl) hl.size hcells hother
    (fun _ _ _ _ hok => .inr hok) (fun key' data' heq => ?_) (by simp [Cell.isLive])
  injection heq with hk _
  exact ⟨hk ▸ hcb, .inl rfl⟩

end Marked

/-! ## `env_flags_init` and `env_callback_init` -/

/-- A list that `env_attr_lookup` reads as `env_attr_walk` does, with at most `n` characters of
attributes for the name. -/
structure ListFits (n : ℕ) (l : List UInt8) (name : CStr) : Prop where
  list : AttrList l
  first : l.head? ≠ some 32
  short : ∀ a, lastAttributes (attrEntries l) name.bytes = some (some a) → a.length ≤ n

theorem lastAttributes_short {es : List (List UInt8 × Option (List UInt8))} {n : ℕ}
    {name a : List UInt8}
    (hes : ∀ e ∈ es, ∀ a ∈ e.2, a.length ≤ n) (h : lastAttributes es name = some (some a)) :
      a.length ≤ n := by
  obtain ⟨e, he, heq⟩ := Option.map_eq_some_iff.mp h
  exact hes e (mem_reverse.mp (mem_of_find?_eq_some he)) a heq

theorem listFits_flags (name : CStr) : ListFits 2 flagsListStatic name where
  list := ⟨by decide, by unfold OnlySpaces; decide +kernel, by decide⟩
  first := by decide
  short a h := lastAttributes_short (by decide +kernel) h

theorem listFits_callbacks (name : CStr) : ListFits 255 callbackListStatic name where
  list := ⟨by decide +kernel, by unfold OnlySpaces; decide +kernel, by decide +kernel⟩
  first := by decide +kernel
  short a h := lastAttributes_short (by decide +kernel) h

variable {n : ℕ}

/-- A lookup in one fitting list. -/
theorem ListFits.lookup_eq (h : ListFits n l name) (hn : AttrName name.bytes) (front : UInt8) :
    (lastAttributes (attrEntries l) name.bytes = none ∧ envAttrLookup front l name.bytes = .notFound) ∨
      ∃ a, lastAttributes (attrEntries l) name.bytes = some a ∧ (a.getD []).length ≤ n ∧
        envAttrLookup front l name.bytes = .found (a.getD []) := by
  rw [envAttrLookup_eq hn h.list h.first front]
  rcases hlast : lastAttributes (attrEntries l) name.bytes with _ | a
  · exact .inl ⟨rfl, rfl⟩
  refine .inr ⟨a, rfl, ?_, rfl⟩
  cases a with
  | none => simp
  | some a => exact h.short a hlast

/-- A lookup in a list and in the static list finds the attributes of the name. -/
theorem lookupListed_spec {list : Option CStr} {static : List UInt8} (hn : AttrName name.bytes)
    (hl : ∀ l ∈ list, ListFits n l.bytes name) (hs : ListFits n static name) (front frontStatic : UInt8) :
    (listedAttributes list static name = none ∧ lookupListed front list frontStatic static
      name = .notFound) ∨ ∃ a, listedAttributes list static name = some a ∧ (a.getD []).length ≤ n ∧
        lookupListed front list frontStatic static name = .found (a.getD []) := by
  have hstatic := hs.lookup_eq hn frontStatic
  rcases list with _ | l
  · exact hstatic
  rw [listedAttributes, Option.bind_some, lookupListed]
  rcases (hl l rfl).lookup_eq hn front with ⟨hlast, hlook⟩ | ⟨a, hlast, hlen, hlook⟩
  · rw [hlast, hlook, Option.none_or]
    exact hstatic
  · rw [hlast, hlook]
    exact .inr ⟨a, rfl, hlen, rfl⟩

theorem encodeAttributes_getD (a : Option (List UInt8)) :
    encodeAttributes (some (a.getD [])) = encodeAttributes a := by
  cases a <;> rfl

namespace EnvParams

variable {P : EnvParams} {list : Option CStr} {s : State EnvCallback FlagsGlobals}

/-- The list used for the callback of a new entry: the one cached at the first call. -/
def initCallbacks (P : EnvParams) (g : FlagsGlobals) : Option CStr :=
  (P.afterFirstCallback g).callbackList

/-- The list used for the flags of a new entry. -/
def initList (P : EnvParams) (g : FlagsGlobals) : Option CStr :=
  (P.afterFirstCall (P.afterFirstCallback g)).flagsList

/-- The callback that the lists ask for. -/
def callbackOf (P : EnvParams) (list : Option CStr) (name : CStr) : Option EnvCallback :=
  match ((listedAttributes list callbackListStatic name).getD none).getD [] with
  | [] => none
  | c :: a => findEnvCallback P.others (c :: a)

theorem afterFirstCall_broken (g : FlagsGlobals) : (P.afterFirstCall g).broken = g.broken := by
  unfold afterFirstCall
  split <;> rfl

theorem afterFirstCallback_broken (g : FlagsGlobals) :
    (P.afterFirstCallback g).broken = g.broken := by
  unfold afterFirstCallback
  split <;> rfl

/-- `env_flags_init` gives a new entry the flags of the cached list. -/
theorem envFlagsInit_spec (idx : ℕ) (s : State EnvCallback FlagsGlobals)
    (hkey : (s.htab.table idx).entry.key = key) (hzero : (s.htab.table idx).entry.flags = 0)
    (hn : AttrName key.bytes) (hl : ∀ l ∈ (P.afterFirstCall s.globals).flagsList, ListFits 2 l.bytes key) :
    (P.envFlagsInit idx s).htab = s.htab.modifyEntry idx (fun e =>
        { e with flags := flagsOf (P.afterFirstCall s.globals).flagsList key }) ∧
      (P.envFlagsInit idx s).globals.broken = s.globals.broken := by
  have hsame : s.htab.modifyEntry idx (fun e => { e with flags := 0 }) = s.htab :=
    modifyEntry_eq_self (by rw [← hzero])
  simp only [envFlagsInit, envFlagsLookup, hkey, flagsOf]
  rcases lookupListed_spec hn hl (listFits_flags key) P.front P.frontStatic with
    ⟨hlist, hlook⟩ | ⟨a, hlist, hlen, hlook⟩
  · rw [hlook, hlist]
    exact ⟨hsame.symm, afterFirstCall_broken _⟩
  rw [hlook, hlist, Option.map_some, Option.getD_some, ← encodeAttributes_getD]
  simp only
  rw [if_neg (by omega)]
  cases a.getD [] with
  | nil => exact ⟨hsame.symm, afterFirstCall_broken _⟩
  | cons c a => exact ⟨rfl, afterFirstCall_broken _⟩

section

variable (hkey : (s.htab.table idx).entry.key = key) (hnone : (s.htab.table idx).entry.callback = none)
  (hn : AttrName key.bytes) (hc : ∀ l ∈ P.initCallbacks s.globals, ListFits 255 l.bytes key)

include hkey hnone hn hc

/-- `env_callback_init` gives a new entry the callback of the cached list. -/
theorem envCallbackInit_spec :
    (P.envCallbackInit idx s).htab = s.htab.modifyEntry idx (fun e =>
        { e with callback := P.callbackOf (P.initCallbacks s.globals) key }) ∧
      (P.envCallbackInit idx s).globals = P.afterFirstCallback s.globals := by
  have hsame : s.htab.modifyEntry idx (fun e => { e with callback := none }) = s.htab :=
    modifyEntry_eq_self (by rw [← hnone])
  simp only [envCallbackInit, hkey, callbackOf]
  unfold initCallbacks at hc ⊢
  rcases lookupListed_spec hn hc (listFits_callbacks key) P.front P.frontCallbacks with
    ⟨hlist, hlook⟩ | ⟨a, hlist, hlen, hlook⟩
  · rw [hlook, hlist]
    exact ⟨hsame.symm, rfl⟩
  rw [hlook, hlist, Option.getD_some]
  simp only
  rw [if_neg (by omega)]
  cases a.getD [] with
  | nil => exact ⟨hsame.symm, rfl⟩
  | cons c a =>
    rw [if_pos (cons_ne_nil c a)]
    simp only
    cases findEnvCallback P.others (c :: a) with
    | none => exact ⟨hsame.symm, rfl⟩
    | some c => exact ⟨rfl, rfl⟩

/-- Both init functions together, on an entry that was just stored. -/
theorem init_spec (hzero : (s.htab.table idx).entry.flags = 0)
    (hl : ∀ l ∈ P.initList s.globals, ListFits 2 l.bytes key) :
    let s' := P.envFlagsInit idx (P.envCallbackInit idx s)
    SameLayout s.htab s'.htab ∧ s'.globals.broken = s.globals.broken ∧
      (s'.htab.table idx).entry.callback = P.callbackOf (P.initCallbacks s.globals) key ∧
      (s'.htab.table idx).entry.flags = flagsOf (P.initList s.globals) key ∧
      ∀ i ≠ idx, s'.htab.table i = s.htab.table i := by
  obtain ⟨hcb, hg⟩ := envCallbackInit_spec hkey hnone hn hc
  have htab : (P.envCallbackInit idx s).htab.table idx = ⟨(s.htab.table idx).used,
      { (s.htab.table idx).entry with callback := P.callbackOf (P.initCallbacks s.globals) key }⟩ := by
    rw [hcb]
    simp [Htab.modifyEntry]
  obtain ⟨hfl, hbr⟩ := envFlagsInit_spec idx (P.envCallbackInit idx s)
    (by rw [htab]; exact hkey) (by rw [htab]; exact hzero) hn (by rw [hg]; exact hl)
  rw [hcb, hg] at hfl
  intro s'
  have hs' : s'.htab = _ := hfl
  rw [hs']
  have hl₁ := sameLayout_modifyEntry s.htab idx
    (fun e => { e with callback := P.callbackOf (P.initCallbacks s.globals) key }) fun _ => ⟨rfl, rfl⟩
  refine ⟨hl₁.trans (sameLayout_modifyEntry _ _ _ fun _ => ⟨rfl, rfl⟩), ?_,
    by simp [Htab.modifyEntry], by simp [Htab.modifyEntry, initList],
    fun i hi => by simp [Htab.modifyEntry, hi]⟩
  rw [hbr, hg, afterFirstCallback_broken]

end

variable {cb : Option EnvCallback} {m : CStr → Option CStr}

/-- The callback of an entry. That of `.flags` never rejects, and brings all flags in line with the
new value; the others may reject and change nothing. -/
theorem runCallback_spec {ok : ℕ → CStr → ℕ → Prop} (h : Marked ok m s.htab) (hcb : Bound key cb)
    (newval : Option CStr) (op : EnvOp) (flag : ℕ) :
    let r := P.hooks.runCallback cb key newval op flag s
    r.1.globals = s.globals ∧ SameLayout s.htab r.1.htab ∧ (key ≠ flagsVar → r.1 = s) ∧
      (key = flagsVar → r.2 = false ∧ Marked (Tracks newval) m r.1.htab) := by
  obtain ⟨hflags, hnone⟩ := hcb
  rcases cb with _ | _ | _ | id
  · exact ⟨rfl, .refl _, fun _ => rfl, fun heq => absurd (hflags.mpr heq) (by simp)⟩
  · obtain ⟨hlay, hmarked⟩ := onFlags_spec h newval
    exact ⟨rfl, hlay, fun hne => absurd (hflags.mp rfl) hne, fun _ => ⟨rfl, hmarked⟩⟩
  · exact absurd rfl hnone
  · exact ⟨rfl, .refl _, fun _ => rfl, fun heq => absurd (hflags.mpr heq) (by simp)⟩

/-- The effect of `createEntry` on a free slot: the entry is in place with the right flags, or it
was rejected and is gone again. -/
theorem createEntry_tracks (h : Marked (Tracks list) m s.htab) (hkey : m key = none)
    (hv : (probeOrder h.rep.sized).Vacant s.htab.cells key idx)
    (data : CStr) (flag : ℕ) (hn : AttrName key.bytes)
      (hl : ∀ l ∈ P.initList s.globals, ListFits 2 l.bytes key)
    (hc : ∀ l ∈ P.initCallbacks s.globals, ListFits 255 l.bytes key)
    (hbound : Bound key (P.callbackOf (P.initCallbacks s.globals) key))
    (hflags : key ≠ flagsVar → flagsOf (P.initList s.globals) key = flagsOf list key) :
    let r := createEntry P.hooks key data flag idx s
    r.1.globals.broken = s.globals.broken ∧ (Marked (Tracks list) m r.1.htab ∨
        Marked (Tracks (if key = flagsVar then some data else list))
          (update m key (some data)) r.1.htab) := by
  obtain ⟨hnone, hzero⟩ := h.free idx hv.mem hv.free
  set s₁ : State EnvCallback FlagsGlobals :=
    { s with htab := s.htab.store idx (firstIndex s.htab.size key) key data } with hs₁
  set s₂ := P.envFlagsInit idx (P.envCallbackInit idx s₁)
  have hinit : P.hooks.flagsInit idx (P.hooks.callbackInit idx s₁) = s₂ := rfl
  have hslot : (s₁.htab.table idx).entry = { (s.htab.table idx).entry with key := key, data := data } := by
    simp [hs₁, Htab.store]
  obtain ⟨hlay, hbroken, hcb, hfl, hother⟩ := init_spec (s := s₁) (by rw [hslot])
    (by rw [hslot]; exact hnone) hn hc (by rw [hslot]; exact hzero) hl
  replace hcb : Bound key (s₂.htab.table idx).entry.callback := hcb ▸ hbound
  have hmarked := h.create hkey hv hlay (fun i hi => by
    rw [hother i hi]
    simp [hs₁, Htab.store, update_of_ne hi]) hcb
  have hcell : s₂.htab.cells idx = .live key data := by
    rw [hlay.cells_eq, cells_store h.rep.sized, update_self]
  have hmem₂ : idx ∈ Finset.Icc 1 s₂.htab.size := by
    rw [hlay.size]
    exact hv.mem
  -- a rejected entry is deleted, and everything is as before
  have hundo : Marked (Tracks list) m (s₂.htab.hdelete idx) := by
    have hd : Marked (Tracks list) _ _ :=
      hmarked.hdelete hmem₂ hcell fun i k flags hne hor => hor.resolve_left hne
    rwa [update_idem, update_eq_self_iff.mpr hkey.symm] at hd
  -- an accepted entry of another name has the flags of the list
  have hkeep : key ≠ flagsVar → Marked (Tracks (if key = flagsVar then some data else list))
      (update m key (some data)) s₂.htab := by
    intro hne
    rw [if_neg hne]
    refine hmarked.reflag (.refl _) fun i hi key' data' hlive => ?_
    rcases (hmarked.live i hi key' data' hlive).2 with rfl | hor
    · rw [hcell] at hlive
      injection hlive with hk _
      rw [hfl, ← hk]
      exact hflags hne
    · exact hor
  obtain ⟨hg, -, hsame, hflagsVar⟩ := runCallback_spec hmarked hcb (some data) .create flag
  simp only [createEntry, ← hs₁, hinit]
  by_cases hden : P.hooks.denies (s₂.htab.table idx).entry (some data) .create flag
  · rw [if_pos hden]
    exact ⟨hbroken, .inl hundo⟩
  rw [if_neg hden]
  generalize P.hooks.runCallback _ key (some data) .create flag s₂ = r at hg hsame hflagsVar ⊢
  by_cases heq : key = flagsVar
  · obtain ⟨hr, hnew⟩ := hflagsVar heq
    rw [if_neg (by simp [hr]), if_pos heq]
    exact ⟨by rw [hg]; exact hbroken, .inr hnew⟩
  · rw [hsame heq]
    by_cases hr : r.2 = true
    · rw [if_pos hr]
      exact ⟨hbroken, .inl hundo⟩
    · rw [if_neg hr]
      exact ⟨hbroken, .inr (hkeep heq)⟩

/-! ## One call -/

/-- What is asked of a state in which a variable is created: it does not take the place of a live
entry, its name can stand in a list, and the cached lists can be read. They give `on_flags` to the
variable exactly if it is `.flags`, and `on_callbacks` to no variable; unless it is `.flags` itself,
they give it the same flags as the current value of `.flags`. -/
structure CreateSafe (P : EnvParams) (s : State EnvCallback FlagsGlobals) (key : CStr) : Prop where
  slot : ¬ ReusesLiveSlot s.htab key
  name : AttrName key.bytes
  list : ∀ l ∈ P.initList s.globals, ListFits 2 l.bytes key
  callbacks : ∀ l ∈ P.initCallbacks s.globals, ListFits 255 l.bytes key
  bound : Bound key (P.callbackOf (P.initCallbacks s.globals) key)
  flags : key ≠ flagsVar → flagsOf (P.initList s.globals) key = flagsOf (lookup s.htab flagsVar) key

/-- The condition on a call. -/
def Safe (P : EnvParams) (s : State EnvCallback FlagsGlobals) : EnvCall → Prop
  | .enter key _ _ => lookup s.htab key = none → s.htab.filled ≠ s.htab.size → CreateSafe P s key
  | _ => True

/-- The invariant of runs. -/
structure Inv (P : EnvParams) (s : State EnvCallback FlagsGlobals) : Prop where
  broken : s.globals.broken = false
  marked : ∃ m, Marked (Tracks (m flagsVar)) m s.htab

theorem inv_of_update (hb : s.globals.broken = false) {value : Option CStr}
    (h : Marked (Tracks (if key = flagsVar then value else m flagsVar))
      (update m key value) s.htab) : Inv P s := by
  refine ⟨hb, update m key value, ?_⟩
  by_cases heq : key = flagsVar
  · subst heq
    rwa [update_self]
  · rw [if_neg heq] at h
    rwa [update_of_ne (Ne.symm heq)]

/-- The callback of an existing entry: it rejects and changes nothing, or the flags are in line with
the value that `.flags` is about to have. -/
theorem runCallback_tracks (h : Marked (Tracks list) m s.htab) (hi : idx ∈ Finset.Icc 1 s.htab.size)
    (hlive : s.htab.cells idx = .live key data) (newval : Option CStr) (op : EnvOp) (flag : ℕ) :
    let r := P.hooks.runCallback (s.htab.table idx).entry.callback key newval op flag s
    r.1.globals = s.globals ∧ SameLayout s.htab r.1.htab ∧ (r.2 = true → r.1 = s) ∧
      Marked (Tracks (if key = flagsVar then newval else list)) m r.1.htab := by
  have hcb := (h.live idx hi key data hlive).1
  obtain ⟨hg, hlay, hsame, hflagsVar⟩ := runCallback_spec h hcb newval op flag
  refine ⟨hg, hlay, ?_, ?_⟩
  · intro hr
    refine hsame fun heq => ?_
    rw [(hflagsVar heq).1] at hr
    cases hr
  · by_cases heq : key = flagsVar
    · rw [if_pos heq]
      exact (hflagsVar heq).2
    · rw [if_neg heq, hsame heq]
      exact h

/-- A change of an existing entry, with the hooks that can reject it, keeps the invariant. -/
theorem change_inv (hb : s.globals.broken = false) (h : Marked (Tracks (m flagsVar)) m s.htab)
    (hi : idx ∈ Finset.Icc 1 s.htab.size) (hlive : s.htab.cells idx = .live key data)
    (newval : Option CStr) (op : EnvOp) (flag : ℕ) (done : Htab EnvCallback → Htab EnvCallback)
    (hdone : ∀ ok htab, Marked ok m htab → idx ∈ Finset.Icc 1 htab.size →
      htab.cells idx = .live key data → Marked ok (update m key newval) (done htab)) :
    let r := P.hooks.runCallback (s.htab.table idx).entry.callback key newval op flag s
    Inv P (if P.hooks.denies (s.htab.table idx).entry newval op flag then (s, Result.failed .eperm)
      else if r.2 then (r.1, .failed .einval)
      else ({ r.1 with htab := done r.1.htab }, .found idx)).1 := by
  intro r
  obtain ⟨hg, hlay, hrej, hmarked⟩ := runCallback_tracks h hi hlive newval op flag
  by_cases hden : P.hooks.denies (s.htab.table idx).entry newval op flag
  · rw [if_pos hden]
    exact ⟨hb, m, h⟩
  rw [if_neg hden]
  by_cases hr : r.2 = true
  · rw [if_pos hr, hrej hr]
    exact ⟨hb, m, h⟩
  rw [if_neg hr]
  have hi' : idx ∈ Finset.Icc 1 r.1.htab.size := by
    rw [hlay.size]
    exact hi
  have hlive' : r.1.htab.cells idx = .live key data := by
    rw [hlay.cells_eq]
    exact hlive
  exact inv_of_update (by rw [← hb, ← hg]) (hdone _ _ hmarked hi' hlive')

/-- `hsearch_r(ENTER)` keeps the invariant. -/
theorem hsearchR_inv (h : Inv P s) (key data : CStr) (flag : ℕ)
    (hsafe : Safe P s (.enter key data flag)) :
    Inv P (hsearchR P.hooks key (.enter data) flag s).1 := by
  obtain ⟨hb, m, hm⟩ := h
  rcases hm.rep.locate_cases key with ⟨idx, hloc, hmem, hlive, -⟩ | ⟨idx, hloc, hnone, hbucket⟩
  · simp only [hsearchR, hloc]
    exact change_inv hb hm hmem hlive (some data) .overwrite flag _ fun _ _ h hi hlive =>
      h.setData hi hlive data
  simp only [hsearchR, hloc]
  by_cases hfull : s.htab.filled = s.htab.size
  · simp only [if_pos hfull]
    exact ⟨hb, m, hm⟩
  simp only [if_neg hfull]
  have hc := hsafe ((hm.rep.lookup_eq key).trans hnone) hfull
  have hv := hm.rep.vacant hnone hbucket hfull hc.slot
  have hflags := hc.flags
  rw [hm.rep.lookup_eq] at hflags
  obtain ⟨hbr, hold | hnew⟩ := createEntry_tracks hm hnone hv data flag hc.name hc.list
    hc.callbacks hc.bound hflags
  · exact ⟨hbr.trans hb, m, hold⟩
  · exact inv_of_update (hbr.trans hb) hnew

/-- One call keeps the invariant. -/
theorem run_inv (s : State EnvCallback FlagsGlobals) (call : EnvCall) (h : Inv P s)
    (hsafe : Safe P s call) : Inv P (call.run P s) := by
  cases call with
  | enter key data flag => exact hsearchR_inv h key data flag hsafe
  | delete key flag =>
    obtain ⟨hb, m, hm⟩ := h
    rcases hsearchR_find P.hooks hm.rep key 0 with ⟨-, hfind⟩ | ⟨idx, hfind, hi, hlive, -⟩ <;>
      simp only [EnvCall.run, hdeleteR, hfind]
    · exact ⟨hb, m, hm⟩
    exact change_inv hb hm hi hlive none .delete flag _ fun _ _ h hi hlive => h.hdelete hi hlive
      fun _ _ _ _ hok => hok
  | getenv buf => exact ⟨h.broken, h.marked⟩

/-- The invariant says that the flags follow the lists. -/
theorem Inv.flagsTrack (h : Inv P s) : FlagsTrack s := by
  obtain ⟨hb, m, hm⟩ := h
  refine ⟨hb, fun i hi hused => ?_⟩
  have hlive := (hm.rep.used_pos_iff hm.small hi).mp hused
  rw [hm.rep.lookup_eq]
  exact (hm.live i hi _ _ hlive).2

/-- A fresh table. -/
theorem inv_fresh {size : ℕ} (hs : WellSized size) (hsmall : size < 2 ^ 31) (buf : CStr) :
    Inv P ⟨⟨fun _ => default, size, 0⟩, .start buf⟩ where
  broken := rfl
  marked := by
    refine ⟨fun _ => none, rep_fresh hs, hsmall, fun i hi key data hlive => ?_, fun i hi _ => ?_⟩
    · exact absurd hlive (by simp [Htab.cells, Slot.cell, default])
    · exact ⟨rfl, rfl⟩

end EnvParams

/-! ## Runs -/

/-- In every run on a fresh table in which each creation of a variable meets `CreateSafe`, the flags
follow the lists after every prefix of the calls. -/
theorem flagsTrack_of_safe {P : EnvParams} {nel : ℕ} {htab : Htab EnvCallback}
    (hc : hcreateR nel = some htab) (h3 : 3 ≤ htab.size) (hsmall : htab.size < 2 ^ 31) {buf : CStr}
    {calls : List EnvCall}
    (hg : Guarded (EnvCall.run P) P.Safe ⟨htab, .start buf⟩ calls) :
    ∀ pre, pre <+: calls → FlagsTrack (pre.foldl (EnvCall.run P) ⟨htab, .start buf⟩) := by
  rintro pre ⟨post, rfl⟩
  have hfresh : P.Inv ⟨htab, .start buf⟩ := by
    obtain ⟨size, rfl, hone | hs⟩ := hcreateR_cases hc
    · exact absurd h3 (by simp [hone])
    · exact P.inv_fresh hs hsmall buf
  exact (hg.of_append.invariant P.run_inv hfresh).flagsTrack

/-- Nothing is denied, there are no other callbacks, and the stored environment has neither list. -/
def plainParams : EnvParams where
  changeOk _ _ _ _ := false
  others _ := none
  rejects _ _ _ _ _ := false
  early := none
  earlyCallbacks := none
  front := 0
  frontStatic := 0
  frontCallbacks := 0

/-- The table made by `hcreate_r(5)`. -/
def smallEnv : State EnvCallback FlagsGlobals :=
  ⟨⟨fun _ => default, 5, 0⟩, .start ∅⟩

/-- The list `b:d`: the variable `b` is a decimal number. -/
def decimalB : CStr := .ofBytes [98, 58, 100]

/-- The variable `b` is made first and declared decimal afterwards. -/
theorem flagsTrack_of_safe_declare : hcreateR 5 = some smallEnv.htab ∧
    ∀ pre, pre <+: [.enter (.ofBytes [98]) (.ofBytes [49]) 0, .enter flagsVar decimalB 0] →
      FlagsTrack (pre.foldl (EnvCall.run plainParams) smallEnv) := by
  have hc : hcreateR 5 = some smallEnv.htab := rfl
  refine ⟨hc, flagsTrack_of_safe hc (by decide) (by decide) ⟨?_, ?_, trivial⟩⟩
  · intro _ _
    exact ⟨by decide +kernel, by constructor <;> decide, nofun, nofun, by decide +kernel,
      fun _ => by decide +kernel⟩
  · intro _ _
    refine ⟨by decide +kernel, by constructor <;> decide, fun l hl => ?_, fun l hl => ?_, by decide +kernel,
      fun hne => absurd rfl hne⟩
    · exact absurd (Option.isSome_of_mem hl) (by decide +kernel)
    · exact absurd (Option.isSome_of_mem hl) (by decide +kernel)

/-- A variable made after `.flags` has named it: the list cached when the first variable was made
does not name it, and it has no flags. -/
theorem not_flagsTrack_stale : hcreateR 5 = some smallEnv.htab ∧
    ¬ FlagsTrack ([.enter (.ofBytes [97]) (.ofBytes [49]) 0, .enter flagsVar decimalB 0,
      .enter (.ofBytes [98]) (.ofBytes [49]) 0].foldl (EnvCall.run plainParams) smallEnv) :=
  ⟨rfl, by decide +kernel⟩

end UBoot.Env
