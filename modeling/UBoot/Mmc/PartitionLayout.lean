import Mathlib.Algebra.GroupWithZero.Nat
import UBoot.Mmc.Partitions
import Mathlib.Data.List.TakeWhile

/-!
# The layout of the merged partition table

Whether `mmc_get_partition_table` lays out a sound table depends on the entry at which its loop over
`part_table` stops. `StopsInTime` says what that entry has to be like, and a table that
`mmc_get_partition_table` returns is sound exactly then.
-/

namespace UBoot.Mmc

open UBoot.Common List

/-! ## Sound tables -/

/-- The gap that belongs behind a partition. -/
def reservedBehind (p : Partition) : ℕ :=
  if sameName p.name mmcBootName then mmcBootPartitionReserved else partitionReserved

/-- In increasing order, with the gaps between them. -/
def Apart (parts : List Partition) : Prop :=
  parts.Pairwise fun p q => p.offset + p.size + reservedBehind p ≤ q.offset

/-- A sound table for a device. -/
structure LayoutOk (c : MmcPartitionConfig) (capacity : ℕ) : Prop where
  room : c.partitions.length ≤ maxMmcPartNum
  counted : c.partNum = c.partitions.length
  apart : Apart c.partitions
  within : ∀ p ∈ c.partitions, p.offset + p.size ≤ capacity

/-- Partitions that are laid out up to `prev`. -/
structure Laid (parts : List Partition) (prev : Partition) : Prop where
  last : parts.getLast? = some prev
  apart : Apart parts

variable {parts : List Partition} {prev q : Partition} {capacity : ℕ}

section

variable (h : Laid parts prev) (hq : prev.offset + prev.size + reservedBehind prev ≤ q.offset)

include h hq

theorem Laid.apart_append : Apart (parts ++ [q]) := by
  obtain ⟨init, rfl⟩ := getLast?_eq_some_iff.mp h.last
  have hinit := pairwise_append.mp h.apart
  refine pairwise_append.mpr ⟨h.apart, pairwise_singleton _ _, fun p hp r hr => ?_⟩
  rw [mem_singleton] at hr
  rw [hr]
  rcases mem_append.mp hp with hp | hp
  · have hle := hinit.2.2 p hp prev (mem_singleton_self prev)
    omega
  · rw [mem_singleton] at hp
    rw [hp]
    exact hq

theorem Laid.append : Laid (parts ++ [q]) q := ⟨getLast?_concat, h.apart_append hq⟩

end

theorem Laid.ends_le (h : Laid parts prev) {p : Partition} (hp : p ∈ parts) :
    p.offset + p.size ≤ prev.offset + prev.size := by
  obtain ⟨init, rfl⟩ := getLast?_eq_some_iff.mp h.last
  rcases mem_append.mp hp with hp | hp
  · have hle := (pairwise_append.mp h.apart).2.2 p hp prev (mem_singleton_self prev)
    omega
  · rw [mem_singleton.mp hp]

/-! ## Names -/

theorem strn_strncpy (l : List UInt8) : strn (strncpy l) = strn l := by
  have hlen : (strn l).length ≤ maxMmcPartNameLen := (takeWhile_sublist _).length_le.trans
    (length_take_le _ _)
  have hnul : ∀ c ∈ strn l, decide (c ≠ 0) = true :=
    fun c hc => mem_takeWhile_imp (p := fun c => decide (c ≠ 0)) hc
  have hzeros : ∀ n, (replicate n (0 : UInt8)).takeWhile (· ≠ 0) = [] := by
    intro n
    cases n <;> rfl
  rw [strn, strncpy, take_of_length_le, takeWhile_append_of_pos hnul, hzeros, append_nil]
  rw [length_append, length_replicate]
  omega

theorem sameName_strncpy (l name : List UInt8) : sameName (strncpy l) name = sameName l name := by
  rw [sameName, strn_strncpy, sameName]

/-! ## Where the loop stops -/

/-- The entry that ends the table: it has size `-1`, or it does not fit the rest of the device. -/
def Stops (capacity start : ℕ) (p : Partition) : Prop :=
  p.size = 2 ^ 64 - 1 ∨ (capacity < start + p.size ∧ start + p.size < 2 ^ 64)

/-- The room that entries take together with their gaps. -/
def extent (entries : List Partition) : ℕ := (entries.map fun p => p.size + partitionReserved).sum

/-- Among the entries to be laid out from `start` on, with `used` entries of the table in use, one
ends the table. It starts within the device, and the table has room for it. -/
def StopsInTime (capacity start used : ℕ) (entries : List Partition) : Prop :=
  ∃ pre p post, entries = pre ++ p :: post ∧ used + pre.length < maxMmcPartNum ∧
    start + extent pre ≤ capacity ∧ Stops capacity (start + extent pre) p

variable {start used : ℕ} {p : Partition} {entries : List Partition}

theorem StopsInTime.start_le (h : StopsInTime capacity start used entries) : start ≤ capacity := by
  obtain ⟨pre, -, -, -, -, hle, -⟩ := h
  omega

theorem stopsInTime_cons : StopsInTime capacity start used (p :: entries) ↔
    (used < maxMmcPartNum ∧ start ≤ capacity ∧ Stops capacity start p) ∨
      StopsInTime capacity (start + (p.size + partitionReserved)) (used + 1) entries := by
  have hcons : ∀ pre, start + extent (p :: pre) = start + (p.size + partitionReserved) + extent pre := by
    intro pre
    rw [extent, map_cons, sum_cons, ← extent]
    omega
  constructor
  · rintro ⟨pre, p', post, heq, hroom, hle, hstops⟩
    rcases pre with _ | ⟨p'', pre⟩
    · obtain ⟨rfl, -⟩ := cons.inj heq
      exact .inl ⟨hroom, hle, hstops⟩
    obtain ⟨rfl, hrest⟩ := cons.inj heq
    rw [hcons] at hle hstops
    rw [length_cons] at hroom
    exact .inr ⟨pre, p', post, hrest, by omega, hle, hstops⟩
  · rintro (⟨hroom, hle, hstops⟩ | ⟨pre, p', post, heq, hroom, hle, hstops⟩)
    · exact ⟨[], p, entries, rfl, hroom, hle, hstops⟩
    · rw [← hcons] at hle hstops
      exact ⟨p :: pre, p', post, by rw [heq, cons_append], by rw [length_cons]; omega, hle, hstops⟩

/-! ## The loop over the device tree -/

variable {tbl : List Partition}

/-- What has been laid out stays in the table. -/
theorem prefix_addFromDts (tbl : List Partition) (capacity : ℕ) (rest parts : List Partition) :
    parts.IsPrefix (addFromDts tbl capacity rest parts).2 := by
  induction rest generalizing parts with
  | nil => exact prefix_refl _
  | cons p rest ih =>
    rw [addFromDts]
    split
    · exact ih parts
    split
    · exact prefix_refl _
    · dsimp only
      split
      · exact prefix_append _ _
      · exact (prefix_append _ _).trans (ih _)

/-- The table with the given outcome of the loop. -/
def configOf (r : ℕ × List Partition) : MmcPartitionConfig where
  version := nameBytes "01.00.00"
  partNum := r.1 + 1
  partitions := r.2

/-- A partition that is out of place spoils the table. -/
theorem not_layoutOk_addFromDts {rest : List Partition}
    (hbad : ¬ (Apart parts ∧ ∀ p ∈ parts, p.offset + p.size ≤ capacity)) :
    ¬ LayoutOk (configOf (addFromDts tbl capacity rest parts)) capacity := by
  intro h
  have hpre := prefix_addFromDts tbl capacity rest parts
  exact hbad ⟨List.Pairwise.sublist hpre.sublist h.apart, fun p hp => h.within p (hpre.subset hp)⟩

theorem restOfDevice_eq {offset : ℕ} (hcap : capacity < 2 ^ 64) (hle : offset ≤ capacity) :
    restOfDevice capacity offset = capacity - offset := by
  have hmod : (capacity + 2 ^ 64 - offset) % 2 ^ 64 = capacity - offset := by omega
  rw [restOfDevice, hmod]
  exact ite_self _

/-- The table when the loop is left at an entry that starts within the device. -/
theorem layoutOk_break_iff (h : Laid parts prev) (hcap : capacity < 2 ^ 64)
    (hq : prev.offset + prev.size + reservedBehind prev ≤ q.offset) (hle : q.offset ≤ capacity) :
    LayoutOk (configOf (parts.length, parts ++ [{ q with size := restOfDevice capacity q.offset }]))
      capacity ↔ parts.length < maxMmcPartNum := by
  have hlen : (parts ++ [{ q with size := restOfDevice capacity q.offset }]).length =
    parts.length + 1 := by
    rw [length_append, length_singleton]
  constructor
  · intro hok
    have hroom := hok.room
    rw [configOf, hlen] at hroom
    exact hroom
  · intro hroom
    have hlaid : Laid (parts ++ [{ q with size := restOfDevice capacity q.offset }])
      { q with size := restOfDevice capacity q.offset } := h.append hq
    refine ⟨by rw [configOf, hlen]; exact hroom, hlen.symm, hlaid.apart, fun r hr => ?_⟩
    have hend := hlaid.ends_le hr
    rw [restOfDevice_eq hcap hle] at hend
    dsimp only at hend
    omega

/-- No entry can be laid out once the device is used up to its last gap: either it starts behind the
device, or its start has wrapped around. -/
theorem not_apart_of_full (h : Laid parts prev) (hprev : reservedBehind prev = partitionReserved)
    (hfull : capacity < prev.offset + prev.size + partitionReserved)
    (hq : q.offset = (prev.offset + prev.size + partitionReserved) % 2 ^ 64) :
    ¬ (Apart (parts ++ [q]) ∧ ∀ p ∈ parts ++ [q], p.offset + p.size ≤ capacity) := by
  rintro ⟨hapart, hwithin⟩
  have hbehind := (pairwise_append.mp hapart).2.2 prev (mem_of_getLast? h.last) q (mem_singleton_self q)
  have hq' := hwithin q (mem_append_right _ (mem_singleton_self q))
  omega

theorem reservedBehind_eq (hprev : sameName prev.name mmcBootName = false) :
    reservedBehind prev = partitionReserved := by
  rw [reservedBehind, hprev]
  rfl

/-- The loop yields a sound table exactly if one of the entries that are not skipped ends it in
time. -/
theorem layoutOk_addFromDts_iff (hcap : capacity < 2 ^ 64)
    (hboot : ∀ name, sameName name mmcBootName = true → isInEmmcPartitionTbl tbl name = true)
    (rest : List Partition) (hsize : ∀ p ∈ rest, p.size < 2 ^ 64) (h : Laid parts prev)
    (hprev : sameName prev.name mmcBootName = false) (hend : prev.offset + prev.size ≤ capacity) :
    LayoutOk (configOf (addFromDts tbl capacity rest parts)) capacity ↔
      StopsInTime capacity (prev.offset + prev.size + partitionReserved) parts.length
        (rest.filter fun p => !isInEmmcPartitionTbl tbl p.name) := by
  induction rest generalizing parts prev with
  | nil =>
    refine iff_of_false (fun hok => ?_) fun ⟨pre, p, post, heq, _⟩ => absurd heq (by simp)
    have hcounted := hok.counted
    rw [addFromDts, configOf] at hcounted
    dsimp only at hcounted
    omega
  | cons p rest ih =>
    have hsize' : ∀ p ∈ rest, p.size < 2 ^ 64 := (forall_mem_cons.mp hsize).2
    set start := prev.offset + prev.size + partitionReserved with hstart
    rw [addFromDts]
    by_cases hskip : isInEmmcPartitionTbl tbl p.name = true
    · rw [if_pos hskip, filter_cons_of_neg (by simp [hskip])]
      exact ih hsize' h hprev hend
    have hbehind := reservedBehind_eq hprev
    set q := placeBehind prev p with hnew
    have hoffset : q.offset = start % 2 ^ 64 := rfl
    have hp := hsize p mem_cons_self
    rw [if_neg hskip, h.last, filter_cons_of_pos (by simp [hskip])]
    dsimp only
    by_cases hfit : start ≤ capacity
    · rw [Nat.mod_eq_of_lt (by omega)] at hoffset
      have hq : prev.offset + prev.size + reservedBehind prev ≤ q.offset := by
        rw [hbehind, hoffset]
      have hqsize : q.size = p.size := rfl
      have hname : sameName q.name mmcBootName = false := by
        rw [hnew, placeBehind, sameName_strncpy]
        exact Bool.eq_false_iff.mpr fun heq => hskip (hboot _ heq)
      rw [stopsInTime_cons, hqsize]
      by_cases hstops : Stops capacity start p
      · rw [if_pos, layoutOk_break_iff h hcap hq (by omega)]
        · refine ⟨fun hroom => .inl ⟨hroom, hfit, hstops⟩, ?_⟩
          rintro (⟨hroom, -, -⟩ | hlater)
          · exact hroom
          · have hle := hlater.start_le
            have hgap : 0 < partitionReserved := by decide
            rcases hstops with hrest | hbig <;> omega
        · rw [hoffset]
          rcases hstops with hrest | ⟨hbig, hlt⟩
          · exact .inl hrest
          · exact .inr (by rw [Nat.mod_eq_of_lt hlt]; exact hbig)
      · obtain ⟨hrest, hbig⟩ := not_or.mp hstops
        have hnext := h.append hq
        rw [if_neg (by rw [hoffset]; omega)]
        by_cases hend' : start + p.size ≤ capacity
        · rw [ih hsize' hnext hname (by omega), length_append, hoffset, hqsize, add_assoc _ p.size]
          exact (or_iff_right fun hstop => hstops hstop.2.2).symm
        -- the end has wrapped around: the entry is taken as it is
        refine iff_of_false (not_layoutOk_addFromDts fun hok => ?_) ?_
        · have hqend := hok.2 q (mem_append_right _ (mem_singleton_self _))
          omega
        · rintro (⟨-, -, hstop⟩ | hlater)
          · exact hstops hstop
          · have hle := hlater.start_le
            omega
    · refine iff_of_false ?_ (fun hstop => hfit hstop.start_le)
      split
      · intro hok
        exact not_apart_of_full h hbehind (by omega)
          (q := { q with size := restOfDevice capacity q.offset }) hoffset ⟨hok.apart, hok.within⟩
      · exact not_layoutOk_addFromDts (not_apart_of_full h hbehind (by omega) hoffset)

/-! ## The inherent partitions -/

/-- The names of the inherent partitions. -/
def inherentNames : List (List UInt8) := emmcPartitionTable.map Partition.name

theorem map_name_modifyByName (name : List UInt8) {f : Partition → Partition}
    (hf : ∀ p, (f p).name = p.name) (tbl : List Partition) :
    (modifyByName name f tbl).map Partition.name = tbl.map Partition.name := by
  induction tbl with
  | nil => rfl
  | cons p rest ih =>
    rw [modifyByName]
    split
    · rfl
    · split
      · rw [map_cons, hf, map_cons]
      · rw [map_cons, ih, map_cons]

theorem map_name_setPartitionInfo (src dst : List Partition) (name : List UInt8) :
    (setPartitionInfo src dst name).map Partition.name = dst.map Partition.name := by
  rw [setPartitionInfo]
  split
  · rfl
  · refine map_name_modifyByName name ?_ dst
    exact fun _ => rfl

/-- Overriding the sizes keeps the names. -/
theorem map_name_overide (src tbl : List Partition) :
    (overideEmmcPartitionTable src tbl).map Partition.name = tbl.map Partition.name := by
  refine foldlRecOn (motive := fun dst : List Partition => dst.map Partition.name =
    tbl.map Partition.name) _ _ rfl fun dst h name _ => ?_
  rw [map_name_setPartitionInfo, h]

/-- The end of the inherent partitions: their sizes and the gaps between them. -/
def inherentEnd (tbl : List Partition) : ℕ :=
  (tbl.map Partition.size).sum + mmcBootPartitionReserved + partitionReserved + partitionReserved

theorem isInEmmcPartitionTbl_boot (hnames : tbl.map Partition.name = inherentNames)
    (name : List UInt8)
    (h : sameName name mmcBootName = true) : isInEmmcPartitionTbl tbl name = true := by
  rcases tbl with _ | ⟨p, rest⟩
  · cases hnames
  have hp : p.name = mmcBootName := (cons.inj hnames).1
  have hsame : sameName mmcBootName name = true := by
    rw [sameName, beq_iff_eq] at h ⊢
    exact h.symm
  rw [isInEmmcPartitionTbl, findPartitionByName, hp, if_pos hsame]
  rfl

/-- An inherent partition where `addInherent` puts it. -/
def inherentBehind (deviceBootFlag : ℕ) (prev q : Partition) : Partition :=
  { q with
    name := if sameName prev.name mmcBootName then renameForSpiBoot deviceBootFlag (strncpy q.name)
      else strncpy q.name
    offset := prev.offset + prev.size + reservedBehind prev }

theorem Laid.addInherent (h : Laid parts prev) (deviceBootFlag : ℕ)
    (hlt : prev.offset + prev.size + reservedBehind prev < 2 ^ 64)
    (hname : sameName (inherentBehind deviceBootFlag prev q).name mmcBootName = false) :
    ∃ last, Laid (addInherent deviceBootFlag parts q) last ∧
      (addInherent deviceBootFlag parts q).length = parts.length + 1 ∧
      last.offset + last.size = prev.offset + prev.size + reservedBehind prev + q.size ∧
      sameName last.name mmcBootName = false := by
  have heq : Mmc.addInherent deviceBootFlag parts q = parts ++ [inherentBehind deviceBootFlag prev q] := by
    rw [Mmc.addInherent, h.last, inherentBehind]
    dsimp only
    rw [reservedBehind] at hlt ⊢
    split at hlt
    · next hboot => simp only [if_pos hboot, Nat.mod_eq_of_lt hlt]
    · next hboot => simp only [if_neg hboot, Nat.mod_eq_of_lt hlt]
  rw [heq, length_append, length_singleton]
  exact ⟨_, h.append le_rfl, rfl, rfl, hname⟩

/-- The inherent partitions are laid out one behind the other. -/
theorem laid_inherent (deviceBootFlag : ℕ) (hnames : tbl.map Partition.name = inherentNames)
    (hend : inherentEnd tbl < 2 ^ 64) :
    ∃ last, Laid (tbl.foldl (addInherent deviceBootFlag) []) last ∧
      (tbl.foldl (addInherent deviceBootFlag) []).length = 4 ∧
      last.offset + last.size = inherentEnd tbl ∧ sameName last.name mmcBootName = false := by
  obtain ⟨boot, reserved, cache, env, rfl⟩ : ∃ a b c d, tbl = [a, b, c, d] := by
    have hlen : tbl.length = 4 := by rw [← length_map, hnames]; rfl
    match tbl, hlen with
    | [a, b, c, d], _ => exact ⟨a, b, c, d, rfl⟩
  obtain ⟨hboot, hreserved, hcache, henv⟩ : boot.name = mmcBootName ∧
      reserved.name = nameBytes "reserved" ∧ cache.name = nameBytes "cache" ∧
      env.name = nameBytes "env" := by
    simpa [inherentNames, emmcPartitionTable] using hnames
  have hsum : inherentEnd [boot, reserved, cache, env] = boot.size + reserved.size +
      cache.size + env.size + mmcBootPartitionReserved + partitionReserved + partitionReserved := by
    simp only [inherentEnd, map_cons, map_nil, sum_cons, sum_nil]
    omega
  -- the boot partition, with the wide gap behind it
  obtain ⟨p₀, hp₀⟩ : ∃ p, p = { boot with name := strncpy boot.name, offset := 0 } := ⟨_, rfl⟩
  have h₀ : Laid [p₀] p₀ := ⟨rfl, pairwise_singleton _ _⟩
  have hwide : sameName p₀.name mmcBootName = true := by
    rw [hp₀, sameName_strncpy, hboot]
    decide
  have hgap₀ : reservedBehind p₀ = mmcBootPartitionReserved := if_pos hwide
  have hend₀ : p₀.offset + p₀.size = boot.size := by rw [hp₀, zero_add]
  -- the others, each with the name it has in the source
  obtain ⟨p₁, h₁, hlen₁, hend₁, hname₁⟩ := h₀.addInherent deviceBootFlag (by omega) (by
    rw [inherentBehind, if_pos hwide, hreserved, renameForSpiBoot]
    dsimp only
    split <;> decide)
  have hgap₁ := reservedBehind_eq hname₁
  obtain ⟨p₂, h₂, hlen₂, hend₂, hname₂⟩ := h₁.addInherent deviceBootFlag (by omega) (by
    rw [inherentBehind, hname₁, if_neg Bool.false_ne_true, sameName_strncpy, hcache]
    decide)
  have hgap₂ := reservedBehind_eq hname₂
  obtain ⟨p₃, h₃, hlen₃, hend₃, hname₃⟩ := h₂.addInherent deviceBootFlag (by omega) (by
    rw [inherentBehind, hname₂, if_neg Bool.false_ne_true, sameName_strncpy, henv]
    decide)
  simp only [foldl_cons, foldl_nil]
  have hfirst : addInherent deviceBootFlag [] boot = [p₀] := by rw [hp₀]; rfl
  rw [hfirst]
  exact ⟨p₃, h₃, by rw [hlen₃, hlen₂, hlen₁]; rfl, by omega, hname₃⟩

/-! ## The whole table -/

/-- The entries of the device tree that are not inherent partitions. -/
def dtsEntries (tbl src : List Partition) : List Partition :=
  src.filter fun p => !isInEmmcPartitionTbl tbl p.name

theorem size_lt_of_mem_partTable {mem : ℕ → UInt8} (hp : p ∈ partTable mem) : p.size < 2 ^ 64 := by
  obtain ⟨i, -, rfl⟩ := mem_map.mp hp
  have hlt := ofLe_lt (load mem (partitionSz * i + 16) 8)
  rw [length_load] at hlt
  exact hlt

/-- For every list of partitions of a device tree and every device that is large enough for the
inherent partitions, the table that `mmc_get_partition_table` returns is sound exactly if one of the
entries that it reads ends the table in time. -/
theorem layoutOk_iff_stopsInTime (dts : List DtsPart) (heap : ℕ → UInt8) (kmalloc : Bool)
    (deviceBootFlag capacity : ℕ) (tbl : List Partition) (hcap : capacity < 2 ^ 64)
    (hnames : tbl.map Partition.name = inherentNames) {c : MmcPartitionConfig} {tbl' : List Partition}
    (hret : mmcGetPartitionTable kmalloc (some (getPartitionFromDts dts heap))
      deviceBootFlag capacity tbl = .ok (c, tbl'))
    (hinherent : inherentEnd tbl' ≤ capacity) :
    LayoutOk c capacity ↔ StopsInTime capacity (inherentEnd tbl' + partitionReserved) 4
      (dtsEntries tbl' (partTable (getPartitionFromDts dts heap))) := by
  obtain ⟨mem, hmem⟩ : ∃ mem, mem = getPartitionFromDts dts heap := ⟨_, rfl⟩
  rw [← hmem] at hret ⊢
  rcases kmalloc with _ | _
  · exact absurd hret (by simp [mmcGetPartitionTable])
  obtain ⟨hc, htbl⟩ := Prod.mk.inj (Except.ok.inj hret)
  have hnames' : tbl'.map Partition.name = inherentNames := by
    rw [← htbl, map_name_overide, hnames]
  obtain ⟨last, hlaid, hlen, hend, hlast⟩ := laid_inherent deviceBootFlag hnames' (by omega)
  have hiff := layoutOk_addFromDts_iff hcap (isInEmmcPartitionTbl_boot hnames') (partTable mem)
    (fun p hp => size_lt_of_mem_partTable hp) hlaid hlast (by omega)
  rw [hlen, hend] at hiff
  rw [← hc, htbl]
  exact hiff

/-- A device tree with a `boot` partition of 32 MiB and a `data` partition for the rest. -/
def smallDts : List DtsPart :=
  [⟨some (nameBytes "boot"), 32 * sz1M, 1⟩, ⟨some (nameBytes "data"), 2 ^ 64 - 1, 4⟩]

theorem layoutOk_iff_stopsInTime_small :
    ∃ c tbl', mmcGetPartitionTable true (some (getPartitionFromDts smallDts fun _ => 255)) 2
        (2 ^ 33) emmcPartitionTable = .ok (c, tbl') ∧ inherentEnd tbl' ≤ 2 ^ 33 ∧
      (LayoutOk c (2 ^ 33) ↔ StopsInTime (2 ^ 33) (inherentEnd tbl' + partitionReserved) 4
        (dtsEntries tbl' (partTable (getPartitionFromDts smallDts fun _ => 255)))) := by
  have hinherent : inherentEnd (overideEmmcPartitionTable
    (partTable (getPartitionFromDts smallDts fun _ => 255)) emmcPartitionTable) ≤ 2 ^ 33 := by
    decide +kernel
  exact ⟨_, _, rfl, hinherent, layoutOk_iff_stopsInTime smallDts (fun _ => 255) true 2 (2 ^ 33)
    emmcPartitionTable (by decide) rfl rfl hinherent⟩

/-- A device tree with 32 partitions of 1 MiB. -/
def thirtyTwoParts : List DtsPart :=
  (List.range 32).map fun i => ⟨some [112, UInt8.ofNat (65 + i)], sz1M, 1⟩

/-- On a device of 8 GiB, 36 entries are filled in and 37 are counted. -/
theorem not_layoutOk_thirtyTwoParts :
    ∃ c tbl', mmcGetPartitionTable true (some (getPartitionFromDts thirtyTwoParts fun _ => 0)) 2
        (2 ^ 33) emmcPartitionTable = .ok (c, tbl') ∧ inherentEnd tbl' ≤ 2 ^ 33 ∧
      c.partitions.length = 36 ∧ c.partNum = 37 ∧ ¬ LayoutOk c (2 ^ 33) := by
  have hbuild : ∀ c, c = buildTable 2 (2 ^ 33) (partTable (getPartitionFromDts thirtyTwoParts fun _ => 0))
      (overideEmmcPartitionTable (partTable (getPartitionFromDts thirtyTwoParts fun _ => 0))
        emmcPartitionTable) → c.partitions.length = 36 ∧ c.partNum = 37 := by
    rintro _ rfl
    decide +kernel
  obtain ⟨hlen, hnum⟩ := hbuild _ rfl
  refine ⟨_, _, rfl, by decide +kernel, hlen, hnum, fun h => ?_⟩
  have hcounted := h.counted
  exact absurd hcounted (by decide)

end UBoot.Mmc
