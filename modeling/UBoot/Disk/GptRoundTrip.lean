import Mathlib.Data.List.TakeWhile
import UBoot.Disk.GptTables

/-!
# Partitions as they are found again

A partition is found again with the block where it begins, its size and the printable characters of
its name. Its UUID is converted to bytes in the order of the text and back in the order of a GUID,
in which the bytes of the first three groups are reversed.
-/

namespace UBoot.Disk

open UBoot.Common UBoot.Lib List

section Entry

variable {dev : GptDev} {p : DiskPartition} {guid : Guid} {start last : UInt64}

/-- The text of a name. -/
def DiskPartition.text (p : DiskPartition) : List UInt8 := p.name.takeWhile (· ≠ 0)

theorem shown_eq_zero_iff {c : UInt8} : shown c = 0 ↔ c = 0 := by
  rw [shown]
  split
  · rename_i hc
    exact ⟨fun h => absurd h (by decide), fun h => absurd h hc.1⟩
  · exact Iff.rfl

theorem takeWhile_map_shown (l : List UInt8) :
    (l.map shown).takeWhile (· ≠ 0) = (l.takeWhile (· ≠ 0)).map shown := by
  rw [takeWhile_map]
  refine congrArg _ (congrArg (takeWhile · l) (funext fun c => ?_))
  simp [shown_eq_zero_iff]

theorem takeWhile_append_nul (l r : List UInt8) :
    (l ++ 0 :: r).takeWhile (· ≠ 0) = l.takeWhile (· ≠ 0) := by
  induction l with
  | nil => simp
  | cons c l ih => rw [cons_append, takeWhile_cons, takeWhile_cons, ih]

/-- The name of an entry is the name of the partition as it is printed. -/
theorem printEfiname_entryOf (ending : UInt64) : printEfiname (entryOf p guid start ending) =
    p.text.map shown := by
  have hchars : ((p.name.map UInt8.toUInt16 ++ replicate 4 0).map fun c :
      UInt16 => shown c.toUInt8) = p.name.map shown ++ [0, 0, 0, 0] := by
    rw [map_append, map_map]
    refine congrArg₂ _ (map_congr_left fun c _ => ?_) (by decide)
    rw [Function.comp_apply, UInt8.toUInt8_toUInt16]
  rw [printEfiname, entryOf]
  rw [hchars, takeWhile_append_nul, takeWhile_map_shown, DiskPartition.text]

/-- Only printable characters are shown as they are. -/
theorem map_shown_text_iff : p.text.map shown = p.text ↔ ∀ c ∈ p.text, isprint c = true := by
  have hmap := map_inj_left (l := p.text) (f := shown) (g := id)
  rw [map_id] at hmap
  rw [hmap]
  refine forall₂_congr fun c hc => ?_
  have hne : c ≠ 0 := by simpa using mem_takeWhile_imp hc
  rw [shown]
  split
  · rename_i hnot
    refine ⟨fun h => ?_, fun h => absurd h hnot.2⟩
    rw [show c = 46 from h.symm]
    decide
  · rename_i hnot
    exact ⟨fun _ => by_contra fun h => hnot ⟨hne, h⟩, fun _ => rfl⟩

theorem lower_comp_lower : lower ∘ lower = lower := by
  funext c
  obtain ⟨n, rfl⟩ := exists_ofFin c
  revert n
  decide +kernel

/-- A size of at least one block survives the inclusive last block. -/
theorem size_entryOf {ps : List DiskPartition} (hsize : p.size ≠ 0) :
    endLba last start p ps + 1 - start = p.size := by
  rw [endLba]
  grind

end Entry

section RoundTrip

variable {crc32 : List UInt8 → UInt32} {dev : GptDev} {stack stack' : ℕ → UInt8}
  {disk disk' : Contents} {strGuid : List UInt8} {parts : List DiskPartition}

/-- A partition is found with the blocks that were laid out, its name and its UUID. -/
def Found (crc32 : List UInt8 → UInt32) (dev : GptDev) (stack : ℕ → UInt8) (disk : Contents)
    (parts : List DiskPartition) (i : ℕ) (p : DiskPartition) : Prop :=
  ∃ info, getPartitionInfoEfi crc32 dev stack disk (i + 1) = some info ∧
    some info.start = (layout 34 parts)[i]? ∧ info.size = p.size ∧ info.name = p.text ∧
    info.uuid.map lower = p.uuid.map lower

/-- All partitions are found. -/
def RoundTrips (crc32 : List UInt8 → UInt32) (dev : GptDev) (stack : ℕ → UInt8) (disk : Contents)
    (parts : List DiskPartition) : Prop :=
  ∀ (i : ℕ) (hi : i < parts.length), Found crc32 dev stack disk parts i parts[i]

/-- A UUID that reads the same if the bytes of its first three groups are reversed. -/
def SwapInvariant (uuid : List UInt8) : Prop := (swapped uuid).map lower = uuid.map lower

instance (uuid : List UInt8) : Decidable (SwapInvariant uuid) := inferInstanceAs (Decidable (_ = _))

/-- When one partition is found as it was given. -/
theorem found_iff (hlba : 128 ≤ dev.lba)
    (h : gptRestore crc32 dev stack disk strGuid parts = some disk') {i : ℕ} (hi : i < parts.length)
    (hi' : i < 128) (hsize : 1 ≤ parts[i].size) :
    Found crc32 dev stack' disk' parts i parts[i] ↔
      (∀ c ∈ parts[i].text, isprint c = true) ∧ SwapInvariant parts[i].uuid := by
  have hcnt := entryBlkCnt_le dev
  have hlba' : 128 ≤ dev.lba.toNat := UInt64.le_iff_toNat_le.mp hlba
  obtain ⟨guid, filled, hfill, -, -, rfl⟩ := gptRestore_eq_some h
  obtain ⟨bin, start, hbin, hstart, he⟩ := getElem?_gptFillPte hfill hi
  have hinfo : getPartitionInfoEfi crc32 dev stack' (restored crc32 dev stack disk guid filled)
    (i + 1) = _ :=
    getPartitionInfoEfi_restored (by omega) hi' he rfl
  have hsize' : parts[i].size ≠ 0 := fun h0 => absurd (h0 ▸ hsize) (by decide)
  have huuid : (infoOf dev (entryOf parts[i] bin start
      (endLba (dev.lba - 34) start parts[i] (parts.drop (i + 1))))).uuid =
      (swapped parts[i].uuid).map lower :=
    uuidBinToStr_of_std hbin
  constructor
  · rintro ⟨info, hget, -, -, hname, hid⟩
    rw [hinfo] at hget
    obtain rfl := Option.some.inj hget
    rw [huuid, map_map, lower_comp_lower] at hid
    exact ⟨map_shown_text_iff.mp ((printEfiname_entryOf _).symm.trans hname), hid⟩
  · rintro ⟨hname, hid⟩
    refine ⟨_, hinfo, hstart.symm, size_entryOf hsize', ?_, ?_⟩
    · exact (printEfiname_entryOf _).trans (map_shown_text_iff.mpr hname)
    · rw [huuid, map_map, lower_comp_lower]
      exact hid

/-- On a disk of at least 128 blocks the partitions of an accepted list are found as they were given
if and only if their names are printable and their UUIDs do not depend on the order of bytes. -/
theorem roundTrips_iff (hlba : 128 ≤ dev.lba) (hlen : parts.length ≤ 128)
    (hsizes : ∀ p ∈ parts, 1 ≤ p.size) (h : gptRestore crc32 dev stack disk strGuid parts = some disk') :
    RoundTrips crc32 dev stack' disk' parts ↔ ∀ p ∈ parts, (∀ c ∈ p.text, isprint c = true) ∧
      SwapInvariant p.uuid := by
  rw [forall_mem_iff_getElem]
  refine forall₂_congr fun i hi => ?_
  exact found_iff hlba h hi (hi.trans_le hlen) (hsizes _ (getElem_mem hi))

/-- A disk of 128 blocks. -/
def smallDisk : GptDev := sectorDev 128

/-- A partition of one block, with a UUID in ASCII. -/
def bootPartition : DiskPartition where
  start := 0
  size := 1
  name := [98, 111, 111, 116] ++ List.replicate 28 0
  -- "00112233-4455-6677-8899-aabbccddeeff"
  uuid := [48, 48, 49, 49, 50, 50, 51, 51, 45, 52, 52, 53, 53, 45, 54, 54, 55, 55, 45,
    56, 56, 57, 57, 45, 97, 97, 98, 98, 99, 99, 100, 100, 101, 101, 102, 102]
  length_name := rfl

/-- One with the UUID 11111111-2222-3333-4444-555555555555. -/
def evenPartition : DiskPartition :=
  { bootPartition with
    uuid := replicate 8 49 ++ 45 :: replicate 4 50 ++ 45 :: replicate 4 51 ++
      45 :: replicate 4 52 ++ 45 :: replicate 12 53 }

theorem exists_gptRestore_smallDisk (parts : List DiskPartition)
    (hfill : (gptFillPte (smallDisk.lba - 34) 34 parts).isSome) (crc32 : List UInt8 → UInt32)
    (stack : ℕ → UInt8) (disk : Contents) :
    ∃ disk', gptRestore crc32 smallDisk stack disk bootPartition.uuid parts = some disk' := by
  obtain ⟨guid, hguid⟩ : ∃ guid, uuidStrToBin bootPartition.uuid .guid = some guid :=
    Option.isSome_iff_exists.mp (by decide +kernel)
  obtain ⟨filled, hfilled⟩ := Option.isSome_iff_exists.mp hfill
  exact ⟨_, gptRestore_eq_restored hguid hfilled (by decide) (by decide)⟩

theorem roundTrips_iff_evenPartition :
    ∃ disk', gptRestore (fun _ => 0) smallDisk (fun _ => 0) (fun _ => 0) bootPartition.uuid
        [evenPartition, evenPartition] = some disk' ∧
      RoundTrips (fun _ => 0) smallDisk (fun _ => 0) disk' [evenPartition, evenPartition] := by
  obtain ⟨disk', h⟩ := exists_gptRestore_smallDisk [evenPartition, evenPartition] (by decide +kernel)
    (fun _ => 0) (fun _ => 0) (fun _ => 0)
  exact ⟨disk', h, (roundTrips_iff (by decide) (by decide) (by decide) h).mpr (by decide +kernel)⟩

/-- The UUID in ASCII is not found. -/
theorem not_roundTrips_bootPartition :
    ∃ disk', gptRestore (fun _ => 0) smallDisk (fun _ => 0) (fun _ => 0) bootPartition.uuid
        [bootPartition] = some disk' ∧
      ¬ RoundTrips (fun _ => 0) smallDisk (fun _ => 0) disk' [bootPartition] := by
  obtain ⟨disk', h⟩ := exists_gptRestore_smallDisk [bootPartition] (by decide +kernel) (fun _ => 0)
    (fun _ => 0) (fun _ => 0)
  refine ⟨disk', h, fun hfound => ?_⟩
  have hswap := ((found_iff (by decide) h (by decide) (by decide) (by decide)).mp (hfound 0 (by decide))).2
  cases hswap

end RoundTrip

end UBoot.Disk
