import UBoot.Env.Export
import UBoot.Env.HashtableSize
import UBoot.Env.Import

/-!
# Import undoes export

The parse loop reads back, entry by entry, what pass 2 of `hexport_r` wrote. On a fresh table
without deleted slots every entry finds a place of its own, so the new table holds the entries of
the old one. What can go wrong is the export: with a NUL separator the backslashes that escape
backslashes have no room reserved for them.
-/

namespace UBoot.Env

open UBoot.Common List Function

variable {κ γ : Type}

/-! ## Parsing what was exported -/

/-- Keys and values that the text form can carry: the key is not empty, has neither `=` nor the
separator in it and does not begin with a blank or `#`, and the value is not empty. -/
structure Importable (sep : UInt8) (ep : Entry κ) : Prop where
  key_ne : ep.key.bytes ≠ []
  no_equals : 61 ∉ ep.key.bytes
  no_sep : sep ∉ ep.key.bytes
  first : ∀ c ∈ ep.key.bytes.head?, c ≠ 32 ∧ c ≠ 9 ∧ c ≠ 35
  data_ne : ep.data.bytes ≠ []

variable {sep : UInt8} {ep : Entry κ} {fuel size count flag : ℕ} {htab : Htab κ}
  {hk : Hooks κ γ} {key : CStr} {rest : List UInt8}

theorem parseValue_escapeValue (hsep : sep = 0 ∨ sep = 10) (name data : CStr) (rest : List UInt8) :
    parseValue sep name.bytes (escapeValue sep data ++ sep :: rest) = some (.enter name data, rest) := by
  have hscan : scanEscaped 92 0 (fun c => c = 0 ∨ c = sep) (escapeValue sep data ++ sep :: rest) =
      some (data.bytes, sep :: rest) := by
    refine scanEscaped_escape (.inr rfl) (fun c hc => hc.imp_right .inl) ?_ data.nul_free (.inr rfl) rest
    rcases hsep with rfl | rfl <;> decide
  rw [parseValue, hscan]
  simp only [CStr.ofBytes_bytes]

/-- One round of the parse loop reads back one exported entry. -/
theorem parseItem_exportEntry (hsep : sep = 0 ∨ sep = 10) (hep : Importable sep ep)
    (rest : List UInt8) :
    parseItem sep (exportEntry sep ep ++ rest) = some (.enter ep.key ep.data, rest) := by
  set tail := escapeValue sep ep.data ++ sep :: rest with htail
  have htext : exportEntry sep ep ++ rest = ep.key.bytes ++ 61 :: tail := by
    simp [exportEntry, htail]
  have hstart : Starts (ep.key.bytes ++ 61 :: tail) := by
    obtain ⟨c, cs, hkey⟩ := exists_cons_of_ne_nil hep.key_ne
    have hfirst := hep.first c (by simp [hkey])
    intro b hb
    obtain rfl : c = b := by simpa [hkey] using hb
    exact ⟨by simp [isblank, hfirst], hfirst.2.2⟩
  have hname : ∀ b ∈ ep.key.bytes, inName sep b = true := by
    intro b hb
    have h61 : b ≠ 61 := fun h => hep.no_equals (h ▸ hb)
    have h0 : b ≠ 0 := fun h => ep.key.nul_free (h ▸ hb)
    have hs : b ≠ sep := fun h => hep.no_sep (h ▸ hb)
    simp [inName, h61, h0, hs]
  -- the value starts with a byte that is neither NUL nor the separator
  obtain ⟨d, value, hvalue, hd⟩ := head_escape 92 (fun c => c = sep ∨ c = 92) hep.data_ne
  have hd0 : d ≠ 0 ∧ d ≠ sep := by
    rcases hd with rfl | ⟨hmem, hns⟩
    · rcases hsep with rfl | rfl <;> decide
    · exact ⟨fun h => ep.data.nul_free (h ▸ hmem), fun h => hns (.inl h)⟩
  have hcons : tail = d :: (value ++ sep :: rest) := by
    rw [htail, escapeValue, hvalue, cons_append]
  have h61 : (61 : UInt8) ≠ sep := by rcases hsep with rfl | rfl <;> decide
  have hval := parseValue_escapeValue hsep ep.key ep.data rest
  rw [← htail, hcons] at hval
  rw [htext, hstart.parseItem_eq hname (inName_eq sep), hcons, parseTail, if_neg (by decide),
    if_neg (by simp [hd0, h61]), hval]

/-- Behind the last entry the loop ends. -/
theorem parseItem_nul (sep : UInt8) (rest : List UInt8) : parseItem sep (0 :: rest) = some
    (.delete ∅, rest) := by
  have hstart : Starts ([] ++ 0 :: rest) := by
    rintro c ⟨⟩
    decide
  exact hstart.parseItem_eq (by simp) (inName_zero sep)

/-! ## The parse loop on an exported text -/

variable {s : State κ γ} {m : CStr → Option CStr} {list : List (Entry κ)}

section Loop

variable {hk : Hooks κ γ} {sep : UInt8} {flag : ℕ}

/-- A text that the parse loop reads as an entry. -/
structure ReadsAs (sep : UInt8) (text : List UInt8) (ep : Entry κ) : Prop where
  key_ne : ep.key.bytes ≠ []
  head : ∃ c l, text = c :: l ∧ c ≠ 0
  parse : ∀ rest, parseItem sep (text ++ rest) = some (.enter ep.key ep.data, rest)

/-- Exported entries are read back. -/
theorem Importable.readsAs (hsep : sep = 0 ∨ sep = 10) (hep : Importable sep ep) :
    ReadsAs sep (exportEntry sep ep) ep := by
  refine ⟨hep.key_ne, ?_, parseItem_exportEntry hsep hep⟩
  obtain ⟨c, cs, hkey⟩ := exists_cons_of_ne_nil hep.key_ne
  have hc : c ≠ 0 := fun h => ep.key.nul_free (by rw [hkey, h]; exact mem_cons_self)
  exact ⟨c, _, by rw [exportEntry, hkey]; rfl, hc⟩

/-- One round of the loop enters one entry. -/
theorem importLoop_entry {text : List UInt8} (hread : ReadsAs sep text ep)
    (hang : (hsearchR hk ep.key (.enter ep.data) flag s).2 ≠ .hang) (rest : List UInt8) (fuel : ℕ) :
    importLoop hk sep flag 0 (fuel + 1) (text ++ rest) [] s =
      if 0 < rest.length ∧ rest.head? ≠ some 0 then
        importLoop hk sep flag 0 fuel rest [] (hsearchR hk ep.key (.enter ep.data) flag s).1
      else .ok (hsearchR hk ep.key (.enter ep.data) flag s).1 := by
  have hne : ep.key ≠ ∅ := fun h => hread.key_ne (by rw [h]; rfl)
  rw [importLoop, hread.parse]
  simp only [processItem, if_neg hne, dropVarFromSet, length_nil, if_true, deleteUnseen]

/-- The loop enters the entries of a text one after the other. An invariant of the entries still to
come and the state, kept by every `ENTER`, holds at the end with none to come. -/
theorem importLoop_entries (text : Entry κ → List UInt8) (Inv : List (Entry κ) → State κ γ → Prop)
    (hstep : ∀ ep list s, Inv (ep :: list) s → (hsearchR hk ep.key (.enter ep.data) flag s).2 ≠
        .hang ∧ Inv list (hsearchR hk ep.key (.enter ep.data) flag s).1)
    (ep : Entry κ) (list : List (Entry κ)) (hread : ∀ e ∈ ep :: list, ReadsAs sep (text e) e)
    (rest : List UInt8) (hfuel : list.length < fuel) (hs : Inv (ep :: list) s) :
    ∃ s', importLoop hk sep flag 0 fuel ((ep :: list).flatMap text ++ 0 :: rest) [] s = .ok s' ∧
      Inv [] s' := by
  induction list generalizing ep fuel s with
  | nil =>
    obtain ⟨fuel, rfl⟩ := Nat.exists_eq_succ_of_ne_zero (Nat.ne_zero_of_lt hfuel)
    obtain ⟨hang, hnext⟩ := hstep ep [] s hs
    rw [flatMap_singleton, importLoop_entry (hread ep mem_cons_self) hang]
    exact ⟨_, rfl, hnext⟩
  | cons ep' list ih =>
    obtain ⟨fuel, rfl⟩ := Nat.exists_eq_succ_of_ne_zero (Nat.ne_zero_of_lt hfuel)
    obtain ⟨hep, hread'⟩ := forall_mem_cons.mp hread
    obtain ⟨hang, hnext⟩ := hstep ep (ep' :: list) s hs
    obtain ⟨c, l, htext, hc⟩ := (hread' ep' mem_cons_self).head
    rw [flatMap_cons, append_assoc, importLoop_entry hep hang, if_pos (by simp [htext, hc])]
    exact ih ep' hread' (by simpa using hfuel) hnext

end Loop

/-! ## Filling a fresh table -/

/-- No slot holds a deleted entry. -/
def Htab.NoneDeleted (htab : Htab κ) : Prop := ∀ i ∈ Finset.Icc 1 htab.size,
    (htab.table i).used ≠ -1

/-- Without deleted slots a table that is not full has a never-used slot. -/
theorem Rep.not_reusesLiveSlot (hr : Rep htab m)
    (hd : htab.NoneDeleted) (hfull : htab.filled ≠ htab.size) (key : CStr) :
    ¬ ReusesLiveSlot htab key := by
  rintro ⟨-, hused, -⟩
  apply hfull
  have hall : (probeOrder hr.sized).slots.filter (fun i => (htab.cells i).isLive = true) =
      (probeOrder hr.sized).slots := by
    rw [Finset.filter_eq_self]
    intro i hi
    by_contra hnl
    rcases (Slot.isLive_cell (htab.table i)).mp (by simpa [Htab.cells] using hnl) with h0 | h1
    · exact (hused i hi).1 h0
    · exact hd i hi h1
  have hcard : (probeOrder hr.sized).slots.card = htab.size := by
    change (Finset.Icc 1 htab.size).card = htab.size
    simp
  rw [hr.filled, ProbeOrder.liveCount, hall, hcard]

/-- Entering a new key into a table without deleted slots that is not full. -/
theorem hsearchR_enter_new (hp : hk.Permissive) (hr : Rep s.htab m) (hd : s.htab.NoneDeleted)
    (hfull : s.htab.filled ≠ s.htab.size) (hkey : m key = none) (data : CStr) (flag : ℕ) :
    let r := hsearchR hk key (.enter data) flag s
    r.2 ≠ .hang ∧ Rep r.1.htab (update m key (some data)) ∧ r.1.htab.NoneDeleted ∧
      r.1.htab.filled = s.htab.filled + 1 ∧ r.1.htab.size = s.htab.size := by
  intro r
  obtain ⟨idx, hres⟩ : ∃ idx, r = createEntry hk key data flag idx s := by
    rcases hr.locate_cases key with ⟨idx, -, -, -, hsome⟩ | ⟨idx, hloc, -⟩
    · exact absurd (hkey.symm.trans hsome) (by simp)
    · simp only [r, hsearchR, hloc, if_neg hfull]
      exact ⟨_, rfl⟩
  obtain ⟨hcreated, hl⟩ := createEntry_permissive hp key data flag idx s
  rw [← hres] at hcreated hl
  have hrep : Rep r.1.htab (update m key (some data)) := by
    rcases hsearchR_enter hp.toBenign hr key data flag (hr.not_reusesLiveSlot hd hfull key) with
      ⟨_, hfound, -⟩ | ⟨_, -, -, hrep⟩ | ⟨_, hfailed, -⟩
    · cases hcreated.symm.trans hfound
    · exact hrep
    · cases hcreated.symm.trans hfailed
  refine ⟨by rw [hcreated]; simp, hrep, ?_, hl.filled, hl.size⟩
  intro i hi
  rw [hl.used]
  rw [hl.size] at hi
  by_cases hidx : i = idx
  · simp only [Htab.store, hidx, update_self]
    exact (hr.sized.intOfU32_firstIndex key).2
  · simp only [Htab.store, update_of_ne hidx]
    exact hd i hi

/-- The map of a list of entries. -/
def contents (list : List (Entry κ)) (key : CStr) : Option CStr :=
  (list.find? fun ep => ep.key = key).map Entry.data

/-- The table holds the map, with as many entries as given. -/
structure Holds (htab : Htab κ) (m : CStr → Option CStr) (count : ℕ) : Prop where
  find : ∀ key, lookup htab key = m key
  filled : htab.filled = count

/-- While a fresh table is filled: what it holds and the entries still to come make up the map, and
there is room for them. -/
structure Filling (size : ℕ) (m : CStr → Option CStr) (count : ℕ) (list : List (Entry κ))
    (s : State κ γ) : Prop where
  rep : ∃ m', Rep s.htab m' ∧ (∀ ep ∈ list, m' ep.key = none) ∧
    ∀ key, (contents list key).or (m' key) = m key
  noneDeleted : s.htab.NoneDeleted
  nodup : (list.map Entry.key).Nodup
  size : s.htab.size = size
  filled : s.htab.filled + list.length = count

theorem contents_cons (ep : Entry κ) (list : List (Entry κ)) (key : CStr) :
    contents (ep :: list) key = if ep.key = key then some ep.data else contents list key := by
  unfold contents
  split <;> simp_all

theorem contents_eq_none (h : key ∉ list.map Entry.key) : contents list key = none := by
  induction list with
  | nil => rfl
  | cons ep list ih =>
    rw [map_cons, mem_cons, not_or] at h
    rw [contents_cons, if_neg (Ne.symm h.1), ih h.2]

/-- With distinct keys the map does not depend on the order of the entries. -/
theorem contents_perm {list' : List (Entry κ)} (h : list.Perm list')
    (hnd : (list.map Entry.key).Nodup) : contents list = contents list' := by
  induction h with
  | nil => rfl
  | cons ep _ ih =>
    funext key
    rw [contents_cons, contents_cons, ih (nodup_cons.mp hnd).2]
  | swap ep ep' list =>
    have hne : ep'.key ≠ ep.key := by
      intro heq
      simp [heq] at hnd
    funext key
    simp only [contents_cons]
    by_cases h : ep.key = key
    · simp only [if_neg (h ▸ hne)]
    · simp only [if_neg h]
  | trans h₁ _ ih₁ ih₂ => exact (ih₁ hnd).trans (ih₂ ((h₁.map _).nodup_iff.mp hnd))

/-- Entering the next entry. -/
theorem Filling.step (hp : hk.Permissive) (hroom : count ≤ size) (ep : Entry κ)
    (list : List (Entry κ)) (s : State κ γ) (h : Filling size m count (ep :: list) s) :
    (hsearchR hk ep.key (.enter ep.data) flag s).2 ≠ .hang ∧
      Filling size m count list (hsearchR hk ep.key (.enter ep.data) flag s).1 := by
  obtain ⟨m', hr, habsent, hm⟩ := h.rep
  have hcount := h.filled
  rw [length_cons] at hcount
  have hfull : s.htab.filled ≠ s.htab.size := by
    rw [h.size]
    omega
  have hkey := habsent ep mem_cons_self
  obtain ⟨hnotin, hnd⟩ := nodup_cons.mp h.nodup
  obtain ⟨hang, hrep, hnone, hfilled, hsize⟩ := hsearchR_enter_new hp hr h.noneDeleted
      hfull hkey ep.data flag
  refine ⟨hang, ⟨_, hrep, ?_, ?_⟩, hnone, hnd, hsize.trans h.size, by omega⟩
  · intro e he
    have hne : e.key ≠ ep.key := fun heq => hnotin (heq ▸ mem_map_of_mem he)
    rw [update_of_ne hne]
    exact habsent e (mem_cons_of_mem ep he)
  · intro key
    rw [← hm key, contents_cons]
    by_cases heq : ep.key = key
    · rw [if_pos heq, ← heq, contents_eq_none hnotin, update_self]
      rfl
    · rw [if_neg heq, update_of_ne (Ne.symm heq)]

/-- A table with nothing to come holds the map. -/
theorem Filling.holds (h : Filling size m count [] s) : Holds s.htab m count := by
  obtain ⟨m', hr, -, hm⟩ := h.rep
  refine ⟨fun key => ?_, h.filled⟩
  rw [hr.lookup_eq, ← hm key]
  rfl

/-! ### Tables of size 1 -/

theorem firstIndex_one (key : CStr) : firstIndex 1 key = 1 := by
  simp [firstIndex, Nat.mod_one]

/-- The one slot of a table of size 1 takes any first entry, and no other key is found. -/
theorem holds_one (hp : hk.Permissive) (ep : Entry κ) (flag : ℕ) (globals : γ) :
    let s : State κ γ := ⟨⟨fun _ => default, 1, 0⟩, globals⟩
    (hsearchR hk ep.key (.enter ep.data) flag s).2 ≠ .hang ∧
      Holds (hsearchR hk ep.key (.enter ep.data) flag s).1.htab (contents [ep]) 1 := by
  intro s
  have hres : hsearchR hk ep.key (.enter ep.data) flag s = createEntry hk ep.key ep.data flag 1 s := by
    simp only [hsearchR, locate, s, firstIndex_one]
    rfl
  obtain ⟨hcreated, hl⟩ := createEntry_permissive hp ep.key ep.data flag 1 s
  rw [hres]
  refine ⟨by rw [hcreated]; simp, fun key => ?_, hl.filled⟩
  set htab := (createEntry hk ep.key ep.data flag 1 s).1.htab
  have hsize : htab.size = 1 := hl.size
  have hused₁ : (htab.table 1).used = 1 := by
    rw [hl.used]
    simp [Htab.store, s, firstIndex_one, intOfU32]
  have hused₀ : (htab.table 0).used = 0 := by
    rw [hl.used]
    rfl
  have hkey : (htab.table 1).entry.key = ep.key := by
    rw [hl.key]
    rfl
  have hdata : (htab.table 1).entry.data = ep.data := by
    rw [hl.data]
    rfl
  simp only [lookup, locate, hsize, firstIndex_one, hused₁, Slot.holds, hkey, contents_cons]
  by_cases heq : key = ep.key
  · simp [heq, hdata, intOfU32]
  · -- the probe goes to slot 0, which is never used
    have hloop : locateLoop htab key 1 (probeStep 1 1) 1 1 = .bucket 0 := by
      simp [locateLoop, hsize, probeStep, stepDown, Slot.holds, hused₀, intOfU32]
    simp [heq, Ne.symm heq, hloop, contents]

/-! ## The round trip -/

/-- Without arguments and flags every entry is exported. -/
theorem exportList_all (htab : Htab κ) : exportList htab 0 [] = htab.entries := by
  simp [exportList]

/-- The text of an empty table leaves a fresh table empty. -/
theorem importLoop_empty (hk : Hooks κ γ) (sep : UInt8) (flag fuel size : ℕ) (globals : γ)
    (hrest : ∀ c ∈ rest.head?, c = 0) :
    importLoop hk sep flag 0 (fuel + 1) (0 :: rest) [] ⟨⟨fun _ => default, size, 0⟩, globals⟩ =
      .ok ⟨⟨fun _ => default, size, 0⟩, globals⟩ := by
  have hdelete : hdeleteR hk ∅ flag ⟨⟨fun _ => default, size, 0⟩, globals⟩ =
      (⟨⟨fun _ => default, size, 0⟩, globals⟩, .failed .esrch) := rfl
  have hstop : ¬ (0 < rest.length ∧ rest.head? ≠ some 0) := by
    cases rest with
    | nil => simp
    | cons c rest => simp [hrest c (by simp)]
  rw [importLoop, parseItem_nul]
  simp only [processItem, dropVarFromSet, length_nil, if_true, hdelete]
  rw [if_neg hstop]
  rfl

/-- A fresh table that is large enough takes all entries of a text. -/
theorem importLoop_fresh (hp : hk.Permissive) (text : Entry κ → List UInt8)
    (hsize : size = 1 ∨ WellSized size) (hread : ∀ ep ∈ list, ReadsAs sep (text ep) ep)
    (hnd : (list.map Entry.key).Nodup)
    (hroom : list.length ≤ size) (hfuel : list.length < fuel)
    (hrest : list = [] → ∀ c ∈ rest.head?, c = 0) (flag : ℕ) (globals : γ) :
    ∃ s', importLoop hk sep flag 0 fuel (list.flatMap text ++ 0 :: rest) []
      ⟨⟨fun _ => default, size, 0⟩, globals⟩ = .ok s' ∧ Holds s'.htab (contents list) list.length := by
  rcases list with _ | ⟨ep, list⟩
  · obtain _ | fuel := fuel
    · omega
    exact ⟨_, importLoop_empty hk sep flag fuel size globals (hrest rfl), fun _ => rfl, rfl⟩
  have hfuel' : list.length < fuel := by
    rw [length_cons] at hfuel
    omega
  rcases hsize with rfl | hs
  · -- one slot, one entry
    obtain rfl : list = [] := length_eq_zero_iff.mp (by simpa using hroom)
    refine importLoop_entries text (fun rest s => (rest = [ep] ∧ s = ⟨⟨fun _ => default, 1, 0⟩, globals⟩) ∨
        (rest = [] ∧ Holds s.htab (contents [ep]) 1))
      ?_ ep [] hread rest hfuel' (.inl ⟨rfl, rfl⟩) |>.imp fun s' h => ⟨h.1, ?_⟩
    · rintro e rest s (⟨heq, rfl⟩ | ⟨heq, -⟩)
      · obtain ⟨rfl, rfl⟩ := cons_eq_cons.mp heq
        have hone := holds_one hp e flag globals
        exact ⟨hone.1, .inr ⟨rfl, hone.2⟩⟩
      · cases heq
    · rcases h.2 with ⟨heq, -⟩ | ⟨-, hholds⟩
      · cases heq
      · exact hholds
  · have hstart : Filling size (contents (ep :: list)) (ep :: list).length (ep :: list)
        (⟨⟨fun _ => default, size, 0⟩, globals⟩ : State κ γ) := by
      refine ⟨⟨_, rep_fresh hs, fun _ _ => rfl, fun key => by simp⟩, ?_, hnd, rfl, zero_add _⟩
      intro i _
      show (0 : ℤ) ≠ -1
      decide
    obtain ⟨s', hloop, hend⟩ := importLoop_entries text _ (Filling.step hp hroom) ep list
        hread rest hfuel' hstart
    exact ⟨s', hloop, hend.holds⟩

/-- Exporting the table and importing the text gives a table with the same entries. -/
def RoundTrips (hk : Hooks κ γ) (htab : Htab κ) (sep : UInt8) (size flag : ℕ)
    (old : Option (Htab κ)) (globals : γ) : Prop :=
  ∃ buf s, hexportR htab sep 0 size [] = .text buf ∧
    himportR hk old globals buf sep flag false [] = .ok s ∧ Holds s.htab (contents htab.entries)
    htab.entries.length

theorem four_mul_length_le_totlen (htab : Htab κ) (sep : UInt8) :
    4 * htab.entries.length ≤ totlen htab sep 0 [] := by
  have hsum := card_nsmul_le_sum (htab.entries.map (entryLength sep)) 4 (by
    intro n hn
    obtain ⟨ep, -, rfl⟩ := mem_map.mp hn
    simp only [entryLength]
    omega)
  rw [totlen, exportList_all]
  simpa [mul_comm] using hsum

/-- Importing an exported text, followed by any number of zeros, into a fresh table with room for
the entries gives the same entries. -/
theorem himportR_exportText (hp : hk.Permissive)
    (hsep : sep = 0 ∨ sep = 10) (himp : ∀ ep ∈ htab.entries, Importable sep ep)
    (hnd : (htab.entries.map Entry.key).Nodup) {k : ℕ}
    (hlen : totlen htab sep 0 [] < (exportText htab sep 0 []).length + k)
    (hflag : flag &&& hNoclear = 0) {fresh : Htab κ}
    (hfresh : hcreateR (importEntries ((exportText htab sep 0 []).length + k)) = some fresh)
    (hroom : htab.entries.length ≤ fresh.size) (old : Option (Htab κ)) (globals : γ) :
    ∃ s, himportR hk old globals (exportText htab sep 0 [] ++ replicate k 0) sep flag false [] =
      .ok s ∧ Holds s.htab (contents htab.entries) htab.entries.length := by
  obtain ⟨size, rfl, hsize⟩ := hcreateR_cases hfresh
  have hperm : (qsort cmpkey htab.entries).Perm htab.entries := qsort_perm _ _
  have hnd' : ((qsort cmpkey htab.entries).map Entry.key).Nodup := (hperm.map _).nodup_iff.mpr hnd
  have hfour := four_mul_length_le_totlen htab sep
  set text := exportText htab sep 0 []
  have hbuf : (text ++ replicate k 0).length = text.length + k := by
    rw [length_append, length_replicate]
  have htext : text ++ replicate k 0 = (qsort cmpkey htab.entries).flatMap (exportEntry sep) ++ 0 ::
    replicate k 0 := by
    simp only [text, exportText, exportList_all, append_assoc, singleton_append]
  have hfuel : (qsort cmpkey htab.entries).length < text.length + k := by
    rw [hperm.length_eq]
    omega
  -- the loop enters the sorted entries
  obtain ⟨s, hloop, hholds⟩ := importLoop_fresh hp (exportEntry sep) hsize
    (fun ep hep => (himp ep (hperm.mem_iff.mp hep)).readsAs hsep) hnd'
    (hperm.length_eq.trans_le hroom) hfuel
    (fun _ c hc => eq_of_mem_replicate (mem_of_mem_head? hc)) flag globals
  rw [← hbuf] at hfresh
  refine ⟨s, ?_, ?_⟩
  · rw [himportR_eq_importLoop hk (by omega) hflag hfresh, hbuf, htext]
    exact hloop
  · rw [← contents_perm hperm hnd', ← hperm.length_eq]
    exact hholds

/-- For a NUL or newline separator, keys and values that the text can carry, a buffer that
`hexport_r` accepts, and a fresh table with room for the entries: the import gives the same entries
back if and only if the values have no more backslashes than the buffer has bytes to spare, or the
separator is the newline. -/
theorem himportR_hexportR_iff {hk : Hooks κ γ} (hp : hk.Permissive) {htab : Htab κ} {sep : UInt8}
    (hsep : sep = 0 ∨ sep = 10) (himp : ∀ ep ∈ htab.entries, Importable sep ep)
    (hnd : (htab.entries.map Entry.key).Nodup) {size : ℕ}
    (hsize : size = 0 ∨ totlen htab sep 0 [] + 1 ≤ size) {flag : ℕ} (hflag : flag &&& hNoclear = 0)
    {fresh : Htab κ}
    (hfresh : hcreateR (importEntries (bufferSize size (totlen htab sep 0 []))) = some fresh)
    (hroom : htab.entries.length ≤ fresh.size) (old : Option (Htab κ)) (globals : γ) :
    RoundTrips hk htab sep size flag old globals ↔ ExportFits htab sep 0 size [] := by
  refine ⟨fun h => ?_, fun hfits => ?_⟩
  · obtain ⟨buf, s, hexp, -⟩ := h
    exact fits_of_hexportR hsize hexp
  have hlen := (length_exportText_le_iff hsize).mpr hfits
  have hbuf : totlen htab sep 0 [] + 1 ≤ bufferSize size (totlen htab sep 0 []) := by
    unfold bufferSize
    split <;> omega
  rw [← Nat.add_sub_of_le hlen] at hfresh
  obtain ⟨s, himport, hholds⟩ := himportR_exportText hp hsep himp hnd (by omega) hflag
      hfresh hroom old globals
  refine ⟨_, s, ?_, himport, hholds⟩
  rw [hexportR, if_neg (by omega), if_pos ((length_exportText_le_iff hsize).mpr hfits)]

/-- A table of size 5 in which the variable `a` has been entered. -/
def oneVariable (value : List UInt8) : Htab Empty :=
  (hsearchR noHooks (.ofBytes [97]) (.enter (.ofBytes value)) 0 ⟨⟨fun _ => default, 5, 0⟩, ()⟩).1.htab

theorem importable_oneVariable (hsep : sep = 0 ∨ sep = 10) {value : List UInt8}
    (hvalue : (CStr.ofBytes value).bytes ≠ []) :
    ∀ ep ∈ (oneVariable value).entries, Importable sep ep := by
  intro ep hep
  obtain rfl : ep = ⟨.ofBytes [97], .ofBytes value, none, 0⟩ := mem_singleton.mp hep
  have hkey : (CStr.ofBytes [97]).bytes = [97] := rfl
  refine ⟨by simp [hkey], by simp [hkey], ?_, by simp [hkey], hvalue⟩
  rcases hsep with rfl | rfl <;> simp [hkey]

/-- A value with a backslash and a newline in it survives with either separator. -/
theorem himportR_hexportR_iff_oneVariable :
    RoundTrips noHooks (oneVariable [92, 10]) 0 0 0 none () ∧
      RoundTrips noHooks (oneVariable [92, 10]) 10 0 0 none () := by
  have hfresh : ∀ sep, sep = 0 ∨ sep = 10 →
      hcreateR (importEntries (bufferSize 0 (totlen (oneVariable [92, 10]) sep 0 []))) =
        some (⟨fun _ => default, 67, 0⟩ : Htab Empty) := by
    rintro sep (rfl | rfl)
    · rw [show totlen (oneVariable [92, 10]) 0 0 [] = 7 by decide +kernel]
      rfl
    · rw [show totlen (oneVariable [92, 10]) 10 0 [] = 9 by decide +kernel]
      rfl
  have hroom : (oneVariable [92, 10]).entries.length ≤ 67 := by decide
  refine ⟨(himportR_hexportR_iff noHooks_permissive (.inl rfl)
    (importable_oneVariable (.inl rfl) (by decide)) (by decide) (.inl rfl) rfl (hfresh 0 (.inl rfl))
    hroom none ()).mpr ?_, (himportR_hexportR_iff noHooks_permissive (.inr rfl)
    (importable_oneVariable (.inr rfl) (by decide)) (by decide) (.inl rfl) rfl (hfresh 10 (.inr rfl))
    hroom none ()).mpr ?_⟩
  · unfold ExportFits
    decide +kernel
  · unfold ExportFits
    decide +kernel

/-- Three backslashes need one byte more than was allocated for the text with NUL separators. -/
theorem not_roundTrips_three_backslashes :
    (∀ ep ∈ (oneVariable [92, 92, 92]).entries, Importable 0 ep) ∧
        hexportR (oneVariable [92, 92, 92]) 0 0 0 [] = .overrun [97, 61, 92, 92, 92, 92, 92, 92, 0] [0] ∧
      ¬ RoundTrips noHooks (oneVariable [92, 92, 92]) 0 0 0 none () := by
  have hover : hexportR (oneVariable [92, 92, 92]) 0 0 0 [] =
      .overrun [97, 61, 92, 92, 92, 92, 92, 92, 0] [0] := by decide +kernel
  refine ⟨importable_oneVariable (.inl rfl) (by decide), hover, ?_⟩
  rintro ⟨buf, s, hexp, -⟩
  cases hexp

end UBoot.Env
