import UBoot.Disk.GptRoundTrip

/-!
# The layout of the entries

Reference: `disk/part_efi.c::gpt_fill_pte`. A size of 0 in front of the last partition and sums that
wrap around are accepted, and nothing compares the number of partitions with the number of entries.
-/

namespace UBoot.Disk

open UBoot.Lib List

/-- The entries are ordered and disjoint, and inside of the usable blocks. -/
structure LaidOut (first last : UInt64) (table : List GptEntry) : Prop where
  le : ∀ e ∈ table, e.startingLba ≤ e.endingLba
  inside : ∀ e ∈ table, first ≤ e.startingLba ∧ e.endingLba ≤ last
  ordered : table.Pairwise fun e e' => e.endingLba < e'.startingLba

/-- Every partition ends inside of the usable blocks, and all but the last one have blocks. -/
def Proper (last : UInt64) : UInt64 → List DiskPartition → Prop
  | _, [] => True
  | offset, p :: ps =>
    ((startLba offset p).toNat + p.size.toNat ≤ last.toNat + 1 ∧
      (ps ≠ [] → p.size ≠ 0 ∧ (startLba offset p).toNat + p.size.toNat ≤ last.toNat)) ∧
      Proper last (startLba offset p + p.size) ps

variable {first last offset : UInt64} {parts : List DiskPartition} {table : List GptEntry}

theorem length_gptFillPte (h : gptFillPte last offset parts = some table) :
    table.length = parts.length := by
  induction parts generalizing offset table with
  | nil =>
    obtain rfl := Option.some.inj h
    rfl
  | cons p ps ih =>
    obtain ⟨guid, es, -, hes, rfl, -⟩ := gptFillPte_cons h
    rw [length_cons, length_cons, ih hes]

/-- When the last block of a partition is on the disk, and in front of the next one. -/
theorem endLba_ok_iff {start : UInt64} {p : DiskPartition} {ps : List DiskPartition}
    (hlt : start + p.size < last) : start ≤ endLba last start p ps ∧ endLba last start p ps ≤ last ∧
        (ps ≠ [] → endLba last start p ps < start + p.size) ↔
      start.toNat + p.size.toNat ≤ last.toNat + 1 ∧
        (ps ≠ [] → p.size ≠ 0 ∧ start.toNat + p.size.toNat ≤ last.toNat) := by
  have hzero : p.size = 0 ↔ p.size.toNat = 0 := UInt64.toNat_inj.symm
  have hsum := UInt64.toNat_add start p.size
  have hend : (start + p.size - 1).toNat = _ := UInt64.toNat_sub _ _
  have hstart := start.toNat_lt
  have hsize := p.size.toNat_lt
  have hlast := last.toNat_lt
  rw [UInt64.toNat_one] at hend
  rw [UInt64.lt_iff_toNat_lt] at hlt
  rw [endLba]
  by_cases hps : ps = []
  · by_cases h0 : p.size = 0
    · simp [hps, h0, UInt64.le_iff_toNat_le]
      rw [hzero] at h0
      omega
    · simp [hps, h0, UInt64.le_iff_toNat_le]
      rw [hzero] at h0
      omega
  · simp [hps, UInt64.le_iff_toNat_le, UInt64.lt_iff_toNat_lt, hzero]
    omega

theorem lt_and_le_of_sub_one_lt {x y : UInt64} (h : x - 1 < y) : x - 1 < x ∧ x ≤ y := by
  have hx := x.toNat_lt
  have hy := y.toNat_lt
  simp only [UInt64.lt_iff_toNat_lt, UInt64.le_iff_toNat_le, UInt64.toNat_sub, UInt64.toNat_one] at h ⊢
  omega

theorem laidOut_cons {e : GptEntry} {es : List GptEntry} :
    LaidOut offset last (e :: es) ↔ (e.startingLba ≤ e.endingLba ∧ offset ≤ e.startingLba ∧
      e.endingLba ≤ last) ∧ (∀ e' ∈ es, e.endingLba < e'.startingLba) ∧ LaidOut offset last es := by
  constructor
  · rintro ⟨hle, hinside, hordered⟩
    rw [forall_mem_cons] at hle hinside
    rw [pairwise_cons] at hordered
    exact ⟨⟨hle.1, hinside.1⟩, hordered.1, hle.2, hinside.2, hordered.2⟩
  · rintro ⟨⟨hle, hinside⟩, hordered, h⟩
    exact ⟨forall_mem_cons.mpr ⟨hle, h.le⟩, forall_mem_cons.mpr ⟨hinside, h.inside⟩,
      pairwise_cons.mpr ⟨hordered, h.ordered⟩⟩

/-- The entries of accepted partitions are laid out if and only if the partitions are proper. -/
theorem laidOut_iff_proper (h : gptFillPte last offset parts = some table) :
    LaidOut offset last table ↔ Proper last offset parts := by
  induction parts generalizing offset table with
  | nil =>
    obtain rfl := Option.some.inj h
    exact ⟨fun _ => trivial, fun _ => ⟨by simp, by simp, .nil⟩⟩
  | cons p ps ih =>
    obtain ⟨guid, es, -, hes, rfl, hoffset, hlt⟩ := gptFillPte_cons h
    rw [laidOut_cons, Proper, ← ih hes, ← endLba_ok_iff hlt]
    constructor
    · rintro ⟨⟨hle, -, hlast⟩, hbehind, hrest⟩
      -- behind the last block of the partition begins the next one
      have hnext : ∀ e' ∈ es, endLba last (startLba offset p) p ps < startLba offset p + p.size ∧
          startLba offset p + p.size ≤ e'.startingLba := by
        intro e' he'
        have hps : ps ≠ [] := by
          rintro rfl
          cases Option.some.inj hes
          cases he'
        have hend : endLba last (startLba offset p) p ps = startLba offset p + p.size - 1 :=
          if_neg fun h => hps h.1
        have hlt' := hbehind e' he'
        rw [hend]
        exact lt_and_le_of_sub_one_lt (hend ▸ hlt')
      refine ⟨⟨hle, hlast, fun hps => ?_⟩, hrest.le,
        fun e' he' => ⟨(hnext e' he').2, (hrest.inside e' he').2⟩, hrest.ordered⟩
      obtain ⟨e', he'⟩ := exists_mem_of_ne_nil es fun hnil => hps (by
        rw [← length_eq_zero_iff, ← length_gptFillPte hes, hnil, length_nil])
      exact (hnext e' he').1
    · rintro ⟨⟨hle, hlast, hnext⟩, hrest⟩
      have hbehind : ∀ e' ∈ es, endLba last (startLba offset p) p ps < e'.startingLba := by
        intro e' he'
        refine UInt64.lt_of_lt_of_le (hnext ?_) (hrest.inside e' he').1
        rintro rfl
        cases Option.some.inj hes
        cases he'
      exact ⟨⟨hle, hoffset, hlast⟩, hbehind, hrest.le, fun e' he' =>
        ⟨UInt64.le_trans (UInt64.le_trans hoffset hle) (UInt64.le_of_lt (hbehind e' he')),
          (hrest.inside e' he').2⟩,
        hrest.ordered⟩

/-- A call that returns 0 lays the entries out and writes to the table only, if and only if the
partitions are proper and not more than 128. -/
theorem gptFillPte_laidOut_iff (h : gptFillPte last first parts = some table) :
    LaidOut first last table ∧ table.length ≤ 128 ↔ Proper last first parts ∧ parts.length ≤ 128 := by
  rw [laidOut_iff_proper h, length_gptFillPte h]

theorem gptFillPte_laidOut_two :
    ∃ table, gptFillPte 94 34 [bootPartition, bootPartition] = some table ∧ LaidOut 34 94 table := by
  obtain ⟨table, h⟩ : ∃ table, gptFillPte 94 34 [bootPartition, bootPartition] = some table :=
    Option.isSome_iff_exists.mp (by decide +kernel)
  exact ⟨table, h, ((gptFillPte_laidOut_iff h).mpr
    ⟨⟨⟨by decide, fun _ => by decide⟩, ⟨by decide, by simp⟩, trivial⟩, by decide⟩).1⟩

/-- A partition without blocks. -/
def emptyPartition : DiskPartition := { bootPartition with size := 0 }

/-- It is accepted in front of another one. -/
theorem not_laidOut_empty :
    ∃ table, gptFillPte 94 34 [emptyPartition, bootPartition] = some table ∧ ¬ LaidOut 34 94 table := by
  obtain ⟨table, h⟩ : ∃ table, gptFillPte 94 34 [emptyPartition, bootPartition] = some table :=
    Option.isSome_iff_exists.mp (by decide +kernel)
  exact ⟨table, h, fun hlaid => (((laidOut_iff_proper h).mp hlaid).1.2 (by simp)).1 rfl⟩

end UBoot.Disk
