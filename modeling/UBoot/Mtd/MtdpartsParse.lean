import UBoot.Mtd.Mtdparts

/-!
# What `parse_mtdparts` accepts

Every device on the list has a known identifier and partitions in the order of their offsets, each
of them inside the device. A partition that was accepted is accepted again as it is.
-/

namespace UBoot.Mtd

open UBoot.Common UBoot.Lib List

/-! ### Numbers -/

section Numbers

theorem readNumber_spec {base acc : ℕ} {p : List UInt8} (h : acc < 2 ^ 64) :
    (readNumber base acc p).1 < 2 ^ 64 ∧ (readNumber base acc p).2 ⊆ p := by
  induction p generalizing acc with
  | nil => exact ⟨h, List.Subset.refl _⟩
  | cons b p ih =>
    rw [readNumber]
    split
    · split
      · obtain ⟨hlt, hsub⟩ := ih (Nat.mod_lt _ (by decide))
        exact ⟨hlt, subset_cons_of_subset b hsub⟩
      · exact ⟨h, List.Subset.refl _⟩
    · exact ⟨h, List.Subset.refl _⟩

theorem simpleStrtoul_spec (base : ℕ) (p : List UInt8) :
    (simpleStrtoul base p).1 < 2 ^ 64 ∧ (simpleStrtoul base p).2 ⊆ p := by
  have hread : ∀ b q, (readNumber b 0 q).1 < 2 ^ 64 ∧ (readNumber b 0 q).2 ⊆ q :=
    fun b q => readNumber_spec (by decide)
  unfold simpleStrtoul
  split
  · split
    · obtain ⟨hlt, hsub⟩ := hread 16 (_ :: _)
      exact ⟨hlt, subset_cons_of_subset _ (subset_cons_of_subset _ hsub)⟩
    · obtain ⟨hlt, hsub⟩ := hread _ (120 :: _)
      exact ⟨hlt, subset_cons_of_subset _ hsub⟩
  · exact ⟨(hread _ _).1, subset_cons_of_subset _ (hread _ _).2⟩
  · exact hread _ _

theorem memsizeParse_spec (p : List UInt8) : (memsizeParse p).1 < 2 ^ 64 ∧
    (memsizeParse p).2 ⊆ p := by
  obtain ⟨hlt, hsub⟩ := simpleStrtoul_spec 0 p
  have hmod : ∀ n : ℕ, n % 2 ^ 64 < 2 ^ 64 := fun n => Nat.mod_lt n (by decide)
  rw [memsizeParse]
  split
  · next ret c q heq =>
    rw [heq] at hlt hsub
    have htail : q ⊆ p := List.Subset.trans (subset_cons_self c q) hsub
    split
    · exact ⟨hmod _, htail⟩
    split
    · exact ⟨hmod _, htail⟩
    · split
      · exact ⟨hmod _, htail⟩
      · exact ⟨hlt, hsub⟩
  · next ret heq =>
    rw [heq] at hlt
    exact ⟨hlt, nil_subset p⟩

end Numbers

/-! ### Partitions -/

section Partitions

/-- The fields of a partition that was parsed. -/
structure Part.WellFormed (part : Part) : Prop where
  size_lt : part.size < 2 ^ 64
  offset_lt : part.offset < 2 ^ 64
  flags : part.maskFlags = 0 ∨ part.maskFlags = 1
  name : part.autoName = false → part.name.bytes ≠ [] ∧ 41 ∉ part.name.bytes

variable {p q : List UInt8}

theorem sizeParse_spec {size : ℕ} (h : sizeParse p = .ok (size, q)) : size < 2 ^ 64 ∧ q ⊆ p := by
  unfold sizeParse at h
  split at h
  · obtain ⟨rfl, rfl⟩ := Prod.mk.inj (Except.ok.inj h)
    exact ⟨by decide, subset_cons_self _ _⟩
  split at h
  · cases h
  · have hspec := memsizeParse_spec p
    rw [Except.ok.inj h] at hspec
    exact hspec

theorem offsetParse_spec (p : List UInt8) : (offsetParse p).1 < 2 ^ 64 ∧ (offsetParse p).2 ⊆ p := by
  unfold offsetParse
  split
  · next p =>
    obtain ⟨hlt, hsub⟩ := memsizeParse_spec p
    exact ⟨hlt, subset_cons_of_subset _ hsub⟩
  · exact ⟨(by decide : offsetNotSpecified < 2 ^ 64), List.Subset.refl _⟩

theorem nameParse_spec {name : Option (List UInt8)} (h : nameParse p = .ok (name, q)) :
    q ⊆ p ∧ ∀ n ∈ name, n ≠ [] ∧ 41 ∉ n ∧ n ⊆ p := by
  unfold nameParse at h
  split at h
  · next p =>
    split at h
    · cases h
    split at h
    · cases h
    next hne =>
    obtain ⟨rfl, rfl⟩ := Prod.mk.inj (Except.ok.inj h)
    refine ⟨subset_cons_of_subset _ ((tail_sublist _).trans (dropWhile_sublist _)).subset, fun n hn => ?_⟩
    obtain rfl := Option.some.inj hn
    refine ⟨hne, fun hmem => ?_, subset_cons_of_subset _ (takeWhile_sublist _).subset⟩
    exact absurd (mem_takeWhile_imp hmem) (by simp)
  · obtain ⟨rfl, rfl⟩ := Prod.mk.inj (Except.ok.inj h)
    exact ⟨List.Subset.refl _, by simp⟩

theorem flagsParse_spec (p : List UInt8) : ((flagsParse p).1 = 0 ∨ (flagsParse p).1 = 1) ∧
    (flagsParse p).2 ⊆ p := by
  unfold flagsParse
  split
  · exact ⟨.inr rfl, subset_cons_of_subset _ (subset_cons_self _ _)⟩
  · exact ⟨.inl rfl, List.Subset.refl _⟩

theorem nextParse_subset {size : ℕ} (h : nextParse size p = .ok q) : q ⊆ p := by
  rcases p with _ | ⟨c, p⟩
  · obtain rfl := Except.ok.inj h
    exact List.Subset.refl _
  rw [nextParse] at h
  split_ifs at h
  · obtain rfl := Except.ok.inj h
    exact subset_cons_self _ _
  · obtain rfl := Except.ok.inj h
    exact List.Subset.refl _

theorem partParse_spec {part : Part} (hnul : 0 ∉ p) (h : partParse p = .ok (part, q)) :
    part.WellFormed ∧ q ⊆ p := by
  rw [partParse] at h
  split at h
  · cases h
  next size p₁ hsize =>
  obtain ⟨hsizelt, hsub₁⟩ := sizeParse_spec hsize
  obtain ⟨hoffset, hsub₂⟩ := offsetParse_spec p₁
  dsimp only at h
  split at h
  · cases h
  next name p₃ hname =>
  obtain ⟨hsub₃, hnames⟩ := nameParse_spec hname
  obtain ⟨hflags, hsub₄⟩ := flagsParse_spec p₃
  have hsub : p₃ ⊆ p := fun b hb => hsub₁ (hsub₂ (hsub₃ hb))
  split at h
  · cases h
  next p₅ hnext =>
  obtain ⟨rfl, rfl⟩ := Prod.mk.inj (Except.ok.inj h)
  refine ⟨⟨hsizelt, hoffset, hflags, fun hauto => ?_⟩, fun b hb => hsub
    (hsub₄ (nextParse_subset hnext hb))⟩
  obtain ⟨n, rfl⟩ := Option.isSome_iff_exists.mp (Option.isNone_eq_false_iff.mp hauto)
  obtain ⟨hne, hclose, hn⟩ := hnames n rfl
  dsimp only [Option.getD_some]
  rw [CStr.bytes_ofBytes fun hmem => hnul (hsub₁ (hsub₂ (hn hmem)))]
  exact ⟨hne, hclose⟩

end Partitions

/-! ### Checks -/

section Checks

variable {mtds : DevType → ℕ → Option MtdInfo} {ids : List Mtdids} {id : Mtdids} {part part' : Part}

/-- What `part_validate` has found. -/
theorem partValidate_spec (h : partValidate mtds id part = .ok part') (hwf : part.WellFormed) :
    part'.WellFormed ∧ part'.offset + part'.size < 2 ^ 64 ∧ part'.offset + part'.size ≤ id.size ∧
      0 < part'.size ∧ partValidate mtds id part' = .ok part' := by
  have hid := id.size_lt
  rw [partValidate] at h
  -- the partition with its size
  generalize hfilled : (if part.size = sizeRemaining then
    { part with size := (id.size + (2 ^ 64 - part.offset)) % 2 ^ 64 } else part) = filled at h
  have hwf' : filled.WellFormed := by
    rw [← hfilled]
    split
    · exact ⟨Nat.mod_lt _ (by decide), hwf.offset_lt, hwf.flags, hwf.name⟩
    · exact hwf
  have hsize := hwf'.size_lt
  split at h
  · cases h
  next hbeyond =>
  split at h
  · cases h
  next hbig =>
  split at h
  · cases h
  next hexceeds =>
  split at h
  · cases h
  next herase =>
  obtain rfl := Except.ok.inj h
  have hend : filled.offset + filled.size < 2 ^ 64 := by omega
  rw [Nat.mod_eq_of_lt hend] at hbig hexceeds
  refine ⟨hwf', hend, by omega, by omega, ?_⟩
  have hsame : (if filled.size = sizeRemaining then
      { filled with size := (id.size + (2 ^ 64 - filled.offset)) % 2 ^ 64 } else filled) = filled := by
    split
    · next hrem =>
      -- the device has all of the address space, and the partition starts at its beginning
      have hzero : filled.offset = 0 := by rw [hrem, sizeRemaining] at hend; omega
      have hfull : id.size = filled.size := by rw [hrem, sizeRemaining] at hexceeds ⊢; omega
      have hmod : (id.size + (2 ^ 64 - filled.offset)) % 2 ^ 64 = filled.size := by
        rw [hzero, hfull, Nat.sub_zero, Nat.add_mod_right, Nat.mod_eq_of_lt hsize]
      rw [hmod]
    · rfl
  rw [partValidate, hsame, if_neg hbeyond, Nat.mod_eq_of_lt hend, if_neg hbig, if_neg hexceeds, herase]

end Checks

/-! ### Order -/

section Order

variable {part : Part} {parts acc acc' : List Part}

/-- In the order of offsets. -/
def Ascending (parts : List Part) : Prop := parts.Pairwise (·.offset ≤ ·.offset)

theorem Ascending.partSortAdd (hacc : Ascending acc) (h : partSortAdd part acc = .ok acc') :
    Ascending acc' ∧ acc'.Perm (part :: acc) := by
  induction acc generalizing acc' with
  | nil =>
    obtain rfl := Except.ok.inj h
    exact ⟨pairwise_singleton _ _, .refl _⟩
  | cons pi acc ih =>
    obtain ⟨hpi, hrest⟩ := pairwise_cons.mp hacc
    rw [Mtd.partSortAdd] at h
    split at h
    · cases h
    split at h
    · next hle =>
      obtain rfl := Except.ok.inj h
      refine ⟨pairwise_cons.mpr ⟨fun q hq => ?_, hacc⟩, .refl _⟩
      rcases mem_cons.mp hq with rfl | hq
      · exact hle
      · exact le_trans hle (hpi q hq)
    · next hlt =>
      split at h
      · cases h
      next rest hadd =>
      obtain rfl := Except.ok.inj h
      obtain ⟨hasc, hperm⟩ := ih hrest hadd
      refine ⟨pairwise_cons.mpr ⟨fun q hq => ?_, hasc⟩, (hperm.cons pi).trans (.swap part pi acc)⟩
      rcases mem_cons.mp (hperm.subset hq) with rfl | hq
      · omega
      · exact hpi q hq

theorem sortAll_spec (hacc : Ascending acc) (h : sortAll acc parts = .ok acc') :
    Ascending acc' ∧ acc'.Perm (acc ++ parts) := by
  induction parts generalizing acc with
  | nil =>
    obtain rfl := Except.ok.inj h
    exact ⟨hacc, by rw [append_nil]⟩
  | cons part parts ih =>
    rw [sortAll] at h
    split at h
    · cases h
    · next acc₁ hadd =>
      obtain ⟨hacc₁, hperm₁⟩ := hacc.partSortAdd hadd
      obtain ⟨hasc, hperm⟩ := ih hacc₁ h
      exact ⟨hasc, hperm.trans ((hperm₁.append_right parts).trans perm_middle.symm)⟩

end Order

/-! ### Devices -/

section Devices

variable {mtds : DevType → ℕ → Option MtdInfo} {ids : List Mtdids} {id : Mtdids} {p q : List UInt8}

/-- A partition on a device. -/
structure Part.OnDevice (mtds : DevType → ℕ → Option MtdInfo) (id : Mtdids) (part : Part) : Prop
    extends part.WellFormed where
  end_lt : part.offset + part.size < 2 ^ 64
  end_le : part.offset + part.size ≤ id.size
  size_pos : 0 < part.size
  valid : partValidate mtds id part = .ok part

variable {fuel : ℕ} {devices devices' : List Device} {text : CStr}

theorem partsLoop_spec {offset : ℕ} {parts : List Part} (hnul : 0 ∉ p) (hoffset : offset < 2 ^ 64)
    (h : partsLoop mtds id fuel p offset = .ok (parts, q)) :
    (∀ part ∈ parts, part.OnDevice mtds id) ∧ q ⊆ p := by
  induction fuel generalizing p offset parts with
  | zero =>
    obtain ⟨rfl, rfl⟩ := Prod.mk.inj (Except.ok.inj h)
    exact ⟨by simp, List.Subset.refl _⟩
  | succ fuel ih =>
    rw [partsLoop] at h
    split at h
    · obtain ⟨rfl, rfl⟩ := Prod.mk.inj (Except.ok.inj h)
      exact ⟨by simp, List.Subset.refl _⟩
    split at h
    · cases h
    next part p₁ hparse =>
    obtain ⟨hwf, hsub⟩ := partParse_spec hnul hparse
    have hplaced : (if part.offset = offsetNotSpecified then { part with offset } else
      part).WellFormed := by
      split
      · exact ⟨hwf.size_lt, hoffset, hwf.flags, hwf.name⟩
      · exact hwf
    dsimp only at h
    split at h
    · cases h
    next part' hvalid =>
    obtain ⟨hwf', hlt, hle, hpos, hagain⟩ := partValidate_spec hvalid hplaced
    split at h
    · cases h
    next parts' p₂ hloop =>
    obtain ⟨rfl, rfl⟩ := Prod.mk.inj (Except.ok.inj h)
    obtain ⟨hparts, hsub'⟩ := ih (fun hmem => hnul (hsub hmem)) (Nat.mod_lt _ (by decide)) hloop
    refine ⟨fun x hx => ?_, fun b hb => hsub (hsub' hb)⟩
    rcases mem_cons.mp hx with rfl | hx
    · exact ⟨hwf', hlt, hle, hpos, hagain⟩
    · exact hparts x hx

/-- A device on the list. -/
structure Device.Accepted (mtds : DevType → ℕ → Option MtdInfo) (ids : List Mtdids) (dev : Device) :
    Prop where
  found : idFindByMtdId ids dev.id.mtdId.bytes = some dev.id
  colon : 58 ∉ dev.id.mtdId.bytes
  numParts : dev.numParts = dev.parts.length % 2 ^ 16
  nonempty : dev.parts ≠ []
  parts : ∀ part ∈ dev.parts, part.OnDevice mtds dev.id
  ascending : Ascending dev.parts

theorem startOffset_lt (devices : List Device) (id : Mtdids) : startOffset devices id < 2 ^ 64 := by
  rw [startOffset]
  split
  · decide
  · split
    · decide
    · exact Nat.mod_lt _ (by decide)

theorem deviceParse_spec {dev : Device} (hnul : 0 ∉ p)
    (h : deviceParse mtds ids devices p = .ok (dev, q)) : dev.Accepted mtds ids ∧ q ⊆ p := by
  rw [deviceParse] at h
  split at h
  · cases h
  split at h
  · cases h
  next id hfind =>
  dsimp only at h
  split at h
  · cases h
  next parts p₁ hloop =>
  have hrest : (p.dropWhile (· ≠ 58)).tail ⊆ p := ((tail_sublist _).trans (dropWhile_sublist _)).subset
  obtain ⟨hparts, hsub⟩ := partsLoop_spec (fun hmem => hnul (hrest hmem)) (startOffset_lt devices id) hloop
  split at h
  · cases h
  next hcount =>
  split at h
  · cases h
  next sorted hsort =>
  obtain ⟨rfl, rfl⟩ := Prod.mk.inj (Except.ok.inj h)
  obtain ⟨hasc, hperm⟩ := sortAll_spec List.Pairwise.nil hsort
  rw [nil_append] at hperm
  have hid : id.mtdId.bytes = p.takeWhile (· ≠ 58) := by
    simpa using find?_some hfind
  refine ⟨⟨?_, ?_, ?_, ?_, fun part hpart => hparts part (hperm.subset hpart), hasc⟩, ?_⟩
  · rw [hid]
    exact hfind
  · rw [hid]
    intro hmem
    exact absurd (mem_takeWhile_imp hmem) (by simp)
  · exact congrArg (· % 2 ^ 16) hperm.length_eq.symm
  · rintro rfl
    rw [nil_perm.mp hperm] at hcount
    exact hcount rfl
  · exact fun b hb => hrest (hsub ((tail_sublist _).subset hb))

/-- No two devices have the same type and number. -/
def Distinct (devices : List Device) : Prop :=
  devices.Pairwise fun dev dev' => ¬ (dev.id.type = dev'.id.type ∧ dev.id.num = dev'.id.num)

theorem devicesLoop_spec (hnul : 0 ∉ p)
    (hdevices : ∀ dev ∈ devices, dev.Accepted mtds ids) (hdistinct : Distinct devices)
    (h : devicesLoop mtds ids fuel devices p = .ok devices') (hne : devices ≠ [] ∨ p ≠ [] ∧ 0 < fuel) :
    ((∀ dev ∈ devices', dev.Accepted mtds ids) ∧ Distinct devices') ∧ devices' ≠ [] := by
  induction fuel generalizing devices p with
  | zero =>
    obtain rfl := Except.ok.inj h
    exact ⟨⟨hdevices, hdistinct⟩, hne.resolve_right fun hlt => absurd hlt.2 (by omega)⟩
  | succ fuel ih =>
    rw [devicesLoop] at h
    split at h
    · next hnil =>
      obtain rfl := Except.ok.inj h
      exact ⟨⟨hdevices, hdistinct⟩, hne.resolve_right fun hp => hp.1 hnil⟩
    · split at h
      · cases h
      · next dev p₁ hparse =>
        obtain ⟨hdev, hsub⟩ := deviceParse_spec hnul hparse
        split at h
        · cases h
        next hfind =>
        refine ih (fun hmem => hnul (hsub hmem)) ?_ ?_ h (.inl (by simp))
        · exact forall_mem_append.mpr ⟨hdevices, forall_mem_singleton.mpr hdev⟩
        · refine pairwise_append.mpr ⟨hdistinct, pairwise_singleton _ _, fun x hx y hy hxy => ?_⟩
          rw [mem_singleton.mp hy] at hxy
          exact hfind (find?_isSome.mpr ⟨x, hx, decide_eq_true hxy⟩)

/-- What `parse_mtdparts` accepts. There is at least one device. -/
theorem parseMtdparts_spec (h : parseMtdparts mtds ids text = .ok devices) :
    ((∀ dev ∈ devices, dev.Accepted mtds ids) ∧ Distinct devices) ∧ devices ≠ [] := by
  rw [parseMtdparts] at h
  split at h
  · cases h
  split at h
  · cases h
  · next hne =>
    exact devicesLoop_spec (fun hmem => text.nul_free (mem_of_mem_drop hmem)) (by simp) .nil h
      (.inr ⟨hne, by omega⟩)

end Devices

end UBoot.Mtd
