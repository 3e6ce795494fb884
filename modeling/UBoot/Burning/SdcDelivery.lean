import UBoot.Burning.BufferRuns
import UBoot.Burning.SdcBurn

/-!
# What burning from an SD card hands over

`optimus_burn_one_partition` drives the buffer manager with the part of the item behind its first
cluster. `Staging` is the invariant before each transfer: what has been handed over and what lies in
the buffer make up the part of the item that has been read. The result is the exact condition under
which a return value of 0 means that the whole item has been handed over.
-/

namespace UBoot.Burning

open UBoot.Common List

/-! ## Reading the item -/

/-- A cluster is a power of two of sectors. -/
def ImgSrcIf.ClusterOk : ImgSrcIf → Prop
  | .store => True
  | .fat clusterSize => ∃ k, clusterSize.toNat = 2 ^ k

variable {src : ImgSrcIf} {x y : ℕ} {s' : Session}

theorem ImgSrcIf.ClusterOk.devAlignSz_eq (h : src.ClusterOk) :
    ∃ j ≤ 16, src.devAlignSz = 2 ^ j := by
  cases src with
  | store => exact ⟨12, by omega, rfl⟩
  | fat clusterSize =>
    obtain ⟨k, hk⟩ := h
    have hlt : k < 8 := by
      have := clusterSize.toNat_lt
      rw [hk] at this
      exact (Nat.pow_lt_pow_iff_right (by omega)).mp this
    refine ⟨k + 9, by omega, ?_⟩
    rw [ImgSrcIf.devAlignSz, hk, Nat.pow_add]

/-- The first cluster has at least one byte of the item. -/
theorem imageItemGetFirstClusterSize_spec (h : src.ClusterOk) (offsetInImage : ℕ) :
    1 ≤ imageItemGetFirstClusterSize src offsetInImage ∧ imageItemGetFirstClusterSize src
    offsetInImage ≤ 65536 := by
  obtain ⟨j, hj, heq⟩ := h.devAlignSz_eq
  have hle : 2 ^ j ≤ 2 ^ 16 := Nat.pow_le_pow_right (by omega) hj
  rw [imageItemGetFirstClusterSize, heq, Nat.and_two_pow_sub_one_eq_mod]
  omega

/-- A read gets the bytes of the package, wherever it starts. -/
theorem imageItemRead_eq (src : ImgSrcIf) (package : ℕ → UInt8) (offset wantSz : ℕ) :
    imageItemRead src package offset wantSz = load package offset wantSz := by
  cases src with
  | fat clusterSize => rfl
  | store =>
    have hmod : offset &&& (4096 - 1) = offset % 4096 := Nat.and_two_pow_sub_one_eq_mod offset 12
    simp only [imageItemRead, ImgSrcIf.devAlignSz, hmod]
    split
    · -- the block without its front is what lies at `offset`
      rw [drop_load, Nat.sub_add_cancel (Nat.mod_le _ _)]
      split
      · rw [take_of_length_le (by rw [length_load]), load_append]
        congr 1
        omega
      · rw [append_nil, take_load, min_eq_left (by omega)]
    · rfl

/-! ## The consumer -/

/-- The state of the consumer after it has burned `d` bytes, with more to come. -/
def ImgBurnInfo.burned (info : ImgBurnInfo) (d : ℕ) : ImgBurnInfo :=
  { info with imgSzDisposed := d, imgBurnSta := if d = 0 then .preBurn else .burnIng }

variable {info : ImgBurnInfo} {data : List UInt8} {d : ℕ}

theorem storageOpen_burned (info : ImgBurnInfo) (d : ℕ) :
    storageOpen (info.burned d) = { info with imgSzDisposed := d, imgBurnSta := .burnIng } := by
  by_cases hd : d = 0 <;> simp [storageOpen, ImgBurnInfo.burned, hd]

/-- The consumer burns all of its data, or fails. -/
theorem downloadImgData_burned_fst (info : ImgBurnInfo) (d : ℕ) (data : List UInt8) :
    (downloadImgData (info.burned d) data).1 = data.length ∨
    (downloadImgData (info.burned d) data).1 = 0 := by
  have hwrite : storageWrite { info with imgSzDisposed := d, imgBurnSta := .burnIng }
      data.length = data.length ∨ storageWrite
      { info with imgSzDisposed := d, imgBurnSta := .burnIng } data.length = 0 := by
    rw [storageWrite, if_neg (by simp)]
    split_ifs
    · exact .inr rfl
    · exact .inr rfl
    · exact .inl rfl
    · exact .inl rfl
  rw [downloadImgData, storageOpen_burned]
  split
  · exact .inr rfl
  · exact hwrite

/-- An image that is not a boot loader is burned as it comes. -/
theorem downloadImgData_burned (hnormal : info.isBootloader = false) (hdata : data ≠ [])
    (d : ℕ) : (downloadImgData (info.burned d) data).1 = data.length ∧ (d + data.length ≠ info.imgPktSz →
        (downloadImgData (info.burned d) data).2 = info.burned (d + data.length)) := by
  have hlen : data.length ≠ 0 := fun h => hdata (length_eq_zero_iff.mp h)
  have hwrite : storageWrite { info with imgSzDisposed := d, imgBurnSta := .burnIng }
    data.length = data.length := by
    simp [storageWrite, hnormal]
  rw [downloadImgData, storageOpen_burned]
  rw [hwrite, if_neg hlen]
  refine ⟨rfl, fun hne => ?_⟩
  rw [storageClose, if_neg (by simp [hne]), ImgBurnInfo.burned, if_neg (by omega)]

/-! ## The invariant -/

/-- Before transfer `i`: `n` bytes of the item lie in front of the transfers that have been
collected, and everything before them has been handed over. -/
structure Staging (item : List UInt8) (n u i : ℕ) (info : ImgBurnInfo) (s : Session) : Prop where
  counting : Counting (item.drop n) u i s.man
  aside : s.man.itemOffsetNotAlignClusterSz = n
  left : s.man.leftDataSz = n
  handed : s.offers.flatMap Offer.data = item.take (groupStart u i * 65536)
  mem : ∀ staged, staged = (item.take (n + i * 65536)).drop (groupStart u i * 65536) →
    Contains s.mem (transferBuf - n) staged
  state : infoAfter info s.offers = info.burned (groupStart u i * 65536)

variable {item : List UInt8} {n u i : ℕ} {s : Session} {consume : List Offer → List UInt8 → ℕ}

/-- A part of the item as what was left in front of the buffer and a part of the transfers. -/
theorem staged_eq (hyx : y ≤ x) (hy : y ≤ item.length) :
    (item.take (n + x)).drop y = (item.take (n + y)).drop y ++ ((item.drop n).take x).drop y := by
  have hrest : (item.drop n).take x = (item.drop n).take y ++ ((item.drop n).take x).drop y := by
    conv_lhs => rw [← take_append_drop y ((item.drop n).take x), take_take, min_eq_left hyx]
  rw [take_add, hrest, ← append_assoc, ← take_add, drop_append_of_le_length]
  · rw [← hrest]
  · rw [length_take]
    omega

section

variable (h : Staging item n u i info s) (hu : Grouped (item.drop n) u)
  (hi : i < transferCount (item.drop n)) (hn : n ≤ 65536) (hlen : n ≤ item.length)

include h hu hi hn hlen

/-- The buffer with the next transfer in it. -/
theorem Staging.mem_transfer :
    Contains (s.received (item.drop n) u i) (transferBuf - n)
      ((item.take (n + (i + 1) * 65536)).drop (groupStart u i * 65536)) := by
  have hcount := transferCount_spec (item.drop n)
  rw [length_drop] at hcount
  obtain ⟨hstart, -⟩ := groupStart_spec hu i
  have hmem := h.mem _ rfl
  obtain ⟨tail, htail⟩ : ∃ tail, tail
    = (item.take (n + groupStart u i * 65536)).drop (groupStart u i * 65536) := ⟨_, rfl⟩
  have hsize : tail.length = n := by rw [htail, length_drop, length_take]; omega
  rw [staged_eq (by omega) (by omega), ← htail] at hmem ⊢
  rw [show transferBuf - n = transferBuf - tail.length by rw [hsize]] at hmem
  have hnext := contains_transfer hu hi (hsize ▸ le_trans hn (by decide)) hmem
  rwa [hsize] at hnext

/-! ## One transfer -/

/-- A transfer that does not complete a group. -/
theorem Staging.transfer_collect (hnot : i + 1 ≠ min (groupStart u i + u)
    (transferCount (item.drop n))) :
    ∃ s', s.transfer consume (transferOf (item.drop n) i) = some s' ∧
      Staging item n u (i + 1) info s' := by
  obtain ⟨hrun, hstart⟩ := h.counting.transfer_collect hu hi hnot
  refine ⟨_, hrun, ?_⟩
  refine
    { counting := ⟨h.counting.unit, h.counting.total, rfl, h.counting.dest, hstart ▸ h.counting.next⟩
      aside := h.aside, left := h.left, handed := hstart ▸ h.handed, mem := ?_, state := hstart ▸ h.state }
  rintro _ rfl
  rw [hstart]
  exact h.mem_transfer hu hi hn hlen

end

variable {packet : List UInt8} {m : BufManager}

/-- The size of what lies in the buffer does not wrap. -/
theorem Counting.staged_lt (h : Counting packet u i m) (hu : Grouped packet u)
    (hn : n ≤ 65536) {transferSz : ℕ} : n + m.thisWriteBackSz transferSz < 2 ^ 32 := by
  have hle : m.thisWriteBackSz transferSz ≤ u * 65536 := by
    rw [BufManager.thisWriteBackSz, h.unit]
    split
    · exact le_rfl
    · exact Nat.le_of_lt (Nat.mod_lt _ (Nat.mul_pos hu.pos (by omega)))
  have hunit := Nat.mul_le_mul_right 65536 hu.le
  omega

/-- Something is written back with the last transfer, whether or not its size is computed right. -/
theorem Counting.thisWriteBackSz_pos (h : Counting packet u i m)
    (hu : Grouped packet u) (hi : i + 1 = transferCount packet) :
    0 < m.thisWriteBackSz (transferOf packet i).length := by
  have hcount := transferCount_spec packet
  obtain ⟨hstart, hlt⟩ := groupStart_spec hu i
  by_cases hfull : (transferOf packet i).length = 65536
  · rw [BufManager.thisWriteBackSz, hfull, h.unit]
    exact Nat.mul_pos hu.pos (by decide)
  · rw [length_transferOf] at hfull
    have hshort : packet.length % 65536 = 0 → transferCount packet % u = 0 := by omega
    rw [h.thisWriteBackSz hu hshort (by omega) (by omega), length_drop, length_take]
    omega

/-- A group with more to come: it is handed over up to its last `n` bytes, which are moved in front
of the buffer. That fails if they are not whole words. -/
theorem Staging.transfer_group (h : Staging item n u i info s) (hu : Grouped (item.drop n) u)
    (hi : i + 1 < transferCount (item.drop n)) (hpos : 1 ≤ n) (hn : n ≤ 65536) (hbig : n < u * 65536)
    (hdue : i + 1 = groupStart u i + u) (hnormal : info.isBootloader = false)
    (hsize : info.imgPktSz = item.length) :
    (n % 4 ≠ 0 → s.transfer (burnConsumer info) (transferOf (item.drop n) i) = none) ∧
      (n % 4 = 0 → ∃ s', s.transfer (burnConsumer info) (transferOf (item.drop n) i) = some s' ∧
        Staging item n u (i + 1) info s') := by
  obtain ⟨hfull, hmore⟩ := length_transferOf_full (item.drop n) i hi
  have hdrop : (item.drop n).length = item.length - n := length_drop
  have hwhole : (i + 1) * 65536 = groupStart u i * 65536 + u * 65536 := by rw [hdue, Nat.add_mul]
  have hbound : n + (i + 1) * 65536 ≤ item.length := by omega
  have hleft : (item.drop n).length - (i + 1) * 65536 ≠ 0 := by omega
  have hmany : ¬ (u * 65536 ≤ n ∨ u * 65536 = 0) := by omega
  have hkeep : n ≠ 0 := by omega
  have hroom : ¬ leftDataMaxSz < n := by rw [leftDataMaxSz]; omega
  have hnot : groupStart u i * 65536 + u * 65536 ≠ info.imgPktSz := by omega
  have hstagedSize : n + (i + 1) * 65536 - groupStart u i * 65536 = u * 65536 + n := by omega
  have hback : s.man.thisWriteBackSz (transferOf (item.drop n) i).length = u * 65536 := by
    rw [BufManager.thisWriteBackSz, hfull, transferUnitSz, if_pos rfl, h.counting.unit]
  obtain ⟨mem, hmem⟩ : ∃ mem, mem = s.received (item.drop n) u i := ⟨_, rfl⟩
  obtain ⟨staged, hstaged⟩ : ∃ staged, staged
    = (item.take (n + (i + 1) * 65536)).drop (groupStart u i * 65536) := ⟨_, rfl⟩
  have hcontains : Contains mem (transferBuf - n) staged := by
    rw [hmem, hstaged]
    exact h.mem_transfer hu (Nat.lt_of_succ_lt hi) hn (le_trans (Nat.le_add_right _ _) hbound)
  have hlen : staged.length = u * 65536 + n := by
    rw [hstaged, length_drop, length_take_of_le hbound, hstagedSize]
  have hload := hcontains.load_eq
  rw [hlen] at hload
  have hdata : load mem (transferBuf - n) (u * 65536) = staged.take (u * 65536) := by
    rw [← hload, take_load, min_eq_left (Nat.le_add_right _ _)]
  have hkept : load mem (transferBuf - n + u * 65536) n = staged.drop (u * 65536) := by
    rw [← hload, drop_load, Nat.add_sub_cancel_left]
  have htaken : (staged.take (u * 65536)).length = u * 65536 :=
    length_take_of_le (hlen ▸ Nat.le_add_right _ _)
  have hne : staged.take (u * 65536) ≠ [] := by
    intro hnil
    rw [hnil] at htaken
    exact hmany (.inr htaken.symm)
  obtain ⟨hburn, hnext⟩ := downloadImgData_burned hnormal hne (groupStart u i * 65536)
  rw [← h.state, htaken] at hburn hnext
  have heq : s.transfer (burnConsumer info) (transferOf (item.drop n) i) = _ :=
    h.counting.transfer_due hu (Nat.lt_of_succ_lt hi) (by rw [← hdue, min_eq_left (le_of_lt hi)])
      h.left h.aside rfl (h.counting.staged_lt hu hn) rfl hmem rfl rfl
  rw [hback, if_pos hleft, Nat.add_sub_cancel_left, hdata, burnConsumer, hburn, if_neg hmany,
    if_neg (lt_irrefl _), Nat.add_sub_cancel, if_neg hkeep, if_neg hleft, if_neg hroom, hkept] at heq
  refine ⟨fun hodd => by rw [heq, if_pos hodd],
    fun heven => ⟨_, by rw [heq, if_neg (not_not.mpr heven)], ?_⟩⟩
  have hstart := groupStart_full hu.pos hdue
  have hadvance := h.counting.advance hu hi hdue
  refine
    { counting := ⟨h.counting.unit, h.counting.total, congrArg (· + 1) h.counting.slot, h.counting.dest,
        by rw [hstart]; exact hadvance⟩
      aside := h.aside, left := rfl, handed := ?_, mem := ?_, state := ?_ }
  · rw [Session.afterWriteBack, flatMap_append, h.handed, hstart, hwhole, take_add,
      flatMap_singleton, hstaged, drop_take, hstagedSize, take_take,
      min_eq_left (Nat.le_add_right _ _)]
  · rintro _ rfl
    rw [hstart]
    have hsame : (item.take (n + (i + 1) * 65536)).drop ((i + 1) * 65536) = staged.drop (u * 65536) := by
      rw [hstaged, drop_drop, hwhole]
    rw [hsame]
    exact contains_store _ _ _
  · rw [Session.afterWriteBack, infoAfter, foldl_append, hstart, hwhole]
    exact hnext hnot

/-- What the manager takes for the last group. -/
def Session.lastGroup (s : Session) (packet : List UInt8) (u n i : ℕ) : List UInt8 :=
  load (s.received packet u i) (transferBuf - n) (n + s.man.thisWriteBackSz (transferOf packet i).length)

section Last

variable (h : Staging item n u i info s) (hu : Grouped (item.drop n) u)
  (hi : i + 1 = transferCount (item.drop n)) (hn : n ≤ 65536)

include h hu hi hn

/-- The last transfer: everything in the buffer is handed over, as far as the manager computes
it. -/
theorem Staging.transfer_last (hdata : data = s.lastGroup (item.drop n) u n i) :
    if (downloadImgData (info.burned (groupStart u i * 65536)) data).1 = 0 then
      s.transfer (burnConsumer info) (transferOf (item.drop n) i) = none
    else ∃ s', s.transfer (burnConsumer info) (transferOf (item.drop n) i) = some s' ∧
      s'.offers.flatMap Offer.data = item.take (groupStart u i * 65536) ++ data := by
  have hcount := transferCount_spec (item.drop n)
  obtain ⟨hstart, hlt⟩ := groupStart_spec hu i
  have hleft : (item.drop n).length - (i + 1) * 65536 = 0 := by omega
  have hdue : i + 1 = min (groupStart u i + u) (transferCount (item.drop n)) := by omega
  have hback := h.counting.thisWriteBackSz_pos hu hi
  have hlen : data.length = n + s.man.thisWriteBackSz (transferOf (item.drop n) i).length := by
    rw [hdata, Session.lastGroup, length_load]
  have heq : s.transfer (burnConsumer info) (transferOf (item.drop n) i) = _ :=
    h.counting.transfer_due hu (le_of_eq hi) hdue h.left h.aside rfl (h.counting.staged_lt hu hn)
      rfl rfl rfl rfl
  rw [Session.lastGroup] at hdata
  rw [hleft, if_neg (show ¬ (0 ≠ 0) by omega), Nat.sub_zero, ← hdata, burnConsumer, h.state] at heq
  split
  · next hzero =>
    rw [hzero] at heq
    exact heq
  · next hne =>
    have hburn := (downloadImgData_burned_fst info (groupStart u i * 65536) data).resolve_right hne
    rw [hburn, ← hlen, if_neg (by omega), if_neg (lt_irrefl _), if_pos (Nat.sub_self _)] at heq
    refine ⟨_, heq, ?_⟩
    rw [Session.afterWriteBack, flatMap_append, h.handed, flatMap_singleton]

/-- What has been handed over after a last transfer that does not fail. -/
theorem Staging.handed_last (hrun : s.transfer (burnConsumer info)
    (transferOf (item.drop n) i) = some s') : s'.offers.flatMap Offer.data = item.take
    (groupStart u i * 65536) ++ s.lastGroup (item.drop n) u n i := by
  have hdone := h.transfer_last hu hi hn rfl
  split at hdone
  · rw [hdone] at hrun
    cases hrun
  · obtain ⟨s'', hrun', hhanded⟩ := hdone
    rw [hrun', Option.some.injEq] at hrun
    rw [← hrun, hhanded]

/-- The last transfer does not fail for an image that is not a boot loader. -/
theorem Staging.transfer_last_some (hnormal : info.isBootloader = false) :
    ∃ s', s.transfer (burnConsumer info) (transferOf (item.drop n) i) = some s' := by
  have hback := h.counting.thisWriteBackSz_pos hu hi
  have hlen : (s.lastGroup (item.drop n) u n i).length ≠ 0 := by
    rw [Session.lastGroup, length_load]
    omega
  have hne : s.lastGroup (item.drop n) u n i ≠ [] := fun hnil => hlen (congrArg length hnil)
  have hburn := (downloadImgData_burned hnormal hne (groupStart u i * 65536)).1
  have hdone := h.transfer_last hu hi hn rfl
  rw [if_neg (by rw [hburn]; exact hlen)] at hdone
  obtain ⟨s', hrun, -⟩ := hdone
  exact ⟨s', hrun⟩

end Last

/-! ## Whole items -/

theorem runTransfers_eq_none {j : ℕ} (h : runTransfers consume s packet i = none) (hij : i ≤ j) :
    runTransfers consume s packet j = none := by
  induction hij with
  | refl => exact h
  | step _ ih => rw [runTransfers, ih]

section

variable (h : Staging item n u i info s) (hu : Grouped (item.drop n) u)
  (hi : i + 1 = transferCount (item.drop n)) (hn : n ≤ 65536) (hlen : n < item.length)
  (hrun : s.transfer (burnConsumer info) (transferOf (item.drop n) i) = some s')

include h hu hi hn hlen hrun

/-- The last transfer, when the manager computes the size of the last group right. -/
theorem Staging.transfer_last_eq (hlast : (item.drop n).length % 65536 = 0 →
    transferCount (item.drop n) % u = 0) : s'.offers.flatMap Offer.data = item := by
  have hcount := transferCount_spec (item.drop n)
  rw [length_drop] at hcount
  obtain ⟨hstart, hlt⟩ := groupStart_spec hu i
  have hend : item.length ≤ n + (i + 1) * 65536 := by omega
  have hdue : i + 1 = min (groupStart u i + u) (transferCount (item.drop n)) := by omega
  have hback := h.counting.thisWriteBackSz hu hlast (le_of_eq hi) hdue
  have hcontains := h.mem_transfer hu (le_of_eq hi) hn (le_of_lt hlen)
  rw [take_of_length_le hend] at hcontains
  rw [take_of_length_le (by rw [length_drop]; omega), length_drop, length_drop] at hback
  have hrest : s.lastGroup (item.drop n) u n i = item.drop (groupStart u i * 65536) := by
    rw [Session.lastGroup, ← hcontains.load_eq, length_drop]
    congr 1
    omega
  rw [h.handed_last hu hi hn hrun, hrest, take_append_drop]

/-- The last transfer of an image that is not a boot loader, when it is of full size and does not
end a full group: more than the item is handed over. -/
theorem Staging.transfer_last_ne (hfull : (item.drop n).length % 65536 = 0)
    (hlast : transferCount (item.drop n) % u ≠ 0) : s'.offers.flatMap Offer.data ≠ item := by
  have hcount := transferCount_spec (item.drop n)
  have hdrop : (item.drop n).length = item.length - n := length_drop
  have hsize : (transferOf (item.drop n) i).length = 65536 := by
    rw [length_transferOf]
    omega
  have hback : s.man.thisWriteBackSz (transferOf (item.drop n) i).length = u * 65536 := by
    rw [BufManager.thisWriteBackSz, hsize, transferUnitSz, if_pos rfl, h.counting.unit]
  have hend : i + 1 ≠ groupStart u i + u := by
    intro heq
    have hmul : transferCount (item.drop n) = (i / u + 1) * u := by
      rw [← hi, heq, groupStart, Nat.add_mul, Nat.one_mul]
    exact hlast (by rw [hmul, Nat.mul_mod_left])
  intro heq
  have hlength := congrArg length heq
  rw [h.handed_last hu hi hn hrun, length_append, Session.lastGroup, length_load] at hlength
  obtain ⟨hstart, hlt⟩ := groupStart_spec hu i
  rw [length_take_of_le (by omega)] at hlength
  omega

end

section

variable (h : Staging item n u 0 info s) (hu : Grouped (item.drop n) u) (hpos : 1 ≤ n) (hn : n ≤ 65536)
  (hbig : n < u * 65536) (hlen : n < item.length) (hnormal : info.isBootloader = false)
  (hsize : info.imgPktSz = item.length)

include h hu hpos hn hbig hlen hnormal hsize

/-- All transfers but the last. They fail at the end of the first group if the bytes that are kept
are not whole words. -/
theorem runTransfers_staging (i : ℕ) (hi : i < transferCount (item.drop n)) :
    if u ≤ i ∧ n % 4 ≠ 0 then runTransfers (burnConsumer info) s (item.drop n) i = none
    else ∃ s', runTransfers (burnConsumer info) s (item.drop n) i = some s' ∧
      Staging item n u i info s' := by
  induction i with
  | zero =>
    rw [if_neg (by omega)]
    exact ⟨s, rfl, h⟩
  | succ i ih =>
    have hrun := ih (by omega)
    split at hrun
    · next hfail =>
      rw [if_pos ⟨by omega, hfail.2⟩]
      exact runTransfers_eq_none hrun (Nat.le_succ i)
    · next hok =>
      obtain ⟨s', hrun, hs'⟩ := hrun
      rw [runTransfers, hrun]
      by_cases hdue : i + 1 = groupStart u i + u
      · obtain ⟨hodd, heven⟩ := hs'.transfer_group hu hi hpos hn hbig hdue hnormal hsize
        split
        · next hfail => exact hodd hfail.2
        · next hgo => exact heven (by omega)
      · rw [if_neg]
        · exact hs'.transfer_collect hu (by omega) hn (le_of_lt hlen) (by omega)
        · -- within the first group nothing has been kept yet
          rintro ⟨hge, hodd⟩
          have hlt : i < u := by omega
          rw [groupStart, Nat.div_eq_of_lt hlt] at hdue
          omega

/-- What the run of an image that is not a boot loader comes to. -/
theorem runTransfers_normal :
    if u < transferCount (item.drop n) ∧ n % 4 ≠ 0 then
      runTransfers (burnConsumer info) s (item.drop n) (transferCount (item.drop n)) = none
    else ∃ s', runTransfers (burnConsumer info) s (item.drop n) (transferCount (item.drop n)) = some
      s' ∧ (s'.offers.flatMap Offer.data = item ↔
        ((item.drop n).length % 65536 = 0 → transferCount (item.drop n) % u = 0)) := by
  obtain ⟨i, hi⟩ : ∃ i, i + 1 = transferCount (item.drop n) := by
    have hcount := transferCount_spec (item.drop n)
    rw [length_drop] at hcount
    exact ⟨transferCount (item.drop n) - 1, by omega⟩
  have hrun := runTransfers_staging h hu hpos hn hbig hlen hnormal hsize i (by omega)
  rw [← hi, runTransfers]
  split at hrun
  · next hfail =>
    rw [if_pos ⟨Nat.lt_succ_of_le hfail.1, hfail.2⟩, hrun]
  next hok =>
  obtain ⟨s', hrun, hs'⟩ := hrun
  rw [if_neg (fun hfail => hok ⟨Nat.le_of_lt_succ hfail.1, hfail.2⟩), hrun]
  obtain ⟨s'', hdone⟩ := hs'.transfer_last_some hu hi hn hnormal
  refine ⟨s'', hdone, fun hhanded hfull => ?_, fun hlast => ?_⟩
  · by_contra hne
    rw [hi] at hne
    exact hs'.transfer_last_ne hu hi hn hlen hdone hfull hne hhanded
  · rw [hi] at hlast
    exact hs'.transfer_last_eq hu hi hn hlen hdone hlast

end

/-! ## The loop -/

section Loop

variable {src : ImgSrcIf} {package : ℕ → UInt8}

theorem transferOf_load (package : ℕ → UInt8) (a total i : ℕ) :
    transferOf (load package a total) i = load package (a + i * 65536)
    (min 65536 (total - i * 65536)) := by
  rw [transferOf, transferUnitSz, drop_load, take_load]

/-- A turn of the loop is a transfer. -/
theorem burnStep_eq {sequenceNo : ℕ} (hseq : sequenceNo ≠ 0) (offset len : ℕ) :
    burnStep consume src package n s sequenceNo offset len
      = (s.transfer consume (load package offset len)).map fun s' => (s', offset + len) := by
  simp only [burnStep, imageItemRead_eq, Session.transfer, length_load]
  rcases s.man.getBufForBulkTransfer len with _ | addr
  · rfl
  simp only [hseq, and_false, if_false]
  cases reportTransferComplete consume { s with mem := store s.mem addr (load package offset len) }
    len <;> rfl

/-- The first turn is a transfer with the first cluster in front of the buffer. -/
theorem burnStep_zero (hn : n ≠ 0) (offset : ℕ) {len : ℕ}
    (hbuf : s.man.getBufForBulkTransfer len = some transferBuf) :
      burnStep consume src package n s 0 offset len =
        (({ s with mem := store s.mem (transferBuf - n) (load package offset n) } :
        Session).transfer consume (load package (offset + n) len)).map fun s' =>
          (s', offset + n + len) := by
  simp only [burnStep, imageItemRead_eq, Session.transfer, length_load, hbuf, ne_eq,
    hn, not_false_eq_true, and_self, if_true]
  cases reportTransferComplete consume { s with
    mem := store (store s.mem (transferBuf - n) (load package offset n)) transferBuf
      (load package (offset + n) len) } len <;> rfl

/-- The size of the next read. -/
theorem thisReadLen_eq (left : ℕ) :
    (if (transferUnitSz : ℤ) < (left : ℤ) then transferUnitSz else (left : ℤ).toNat) = min 65536 left := by
  rw [transferUnitSz]
  split <;> omega

/-- What is left, and where to read on, after the next read. -/
theorem afterRead_eq (a total i : ℕ) :
    ((total - i * 65536 : ℕ) : ℤ) - ((min 65536 (total - i * 65536) : ℕ) : ℤ) =
      ((total - (i + 1) * 65536 : ℕ) : ℤ) ∧ a + min (i * 65536) total + min 65536
      (total - i * 65536) = a + min ((i + 1) * 65536) total := by
  omega

/-- From its second turn on, the loop does the transfers that are left. -/
theorem burnLoop_eq {s₀ : Session} (a total : ℕ)
    (hpacket : packet = load package a total) (fuel i : ℕ) (hi : 1 ≤ i) (hle : i ≤ transferCount packet)
    (hfuel : total - i * 65536 < fuel) (hrun : runTransfers consume s₀ packet i = some s) :
    burnLoop consume src package n fuel ((total - i * 65536 : ℕ) : ℤ) i (a + min (i * 65536) total)
      s = runTransfers consume s₀ packet (transferCount packet) := by
  have hlen : packet.length = total := by rw [hpacket, length_load]
  induction fuel generalizing i s with
  | zero => omega
  | succ fuel ih =>
    have hcount := transferCount_spec packet
    rw [burnLoop]
    by_cases hend : i = transferCount packet
    · rw [if_pos (by omega), ← hend, hrun]
    have hmore : i * 65536 < total := by omega
    have hfuel' : total - (i + 1) * 65536 < fuel := by
      have hpos := Nat.sub_pos_of_lt hmore
      rw [Nat.succ_mul, ← Nat.sub_sub]
      exact lt_of_lt_of_le (Nat.sub_lt hpos (Nat.succ_pos _)) (Nat.le_of_lt_succ hfuel)
    have hle' : i + 1 ≤ transferCount packet := by omega
    have hbytes : load package (a + min (i * 65536) total) (min 65536 (total - i * 65536)) =
      transferOf packet i := by
      rw [hpacket, transferOf_load, min_eq_left (le_of_lt hmore)]
    have hnext : runTransfers consume s₀ packet (i + 1) = s.transfer consume (transferOf packet i) := by
      rw [runTransfers, hrun]
    rw [if_neg (by omega), thisReadLen_eq]
    dsimp only
    rw [burnStep_eq (ne_of_gt hi), hbytes, ← hnext]
    cases hstep : runTransfers consume s₀ packet (i + 1) with
    | none => exact (runTransfers_eq_none hstep hle').symm
    | some s' =>
      obtain ⟨hrest, hoffset⟩ := afterRead_eq a total i
      rw [hrest, hoffset]
      exact ih (i + 1) (Nat.le_add_left 1 i) hle' hfuel' hstep

end Loop

/-! ## The whole item -/

section Item

variable {src : ImgSrcIf} {package mem : ℕ → UInt8} {partName : String} {part : Option PartInfo}
  {offsetInImage itemSz : ℕ}

/-- The manager with the first cluster in front of the buffer. -/
theorem staging_start (mem : ℕ → UInt8) (hcounting : Counting (item.drop n) u 0 m)
    (haside : m.itemOffsetNotAlignClusterSz = n) (hleft : m.leftDataSz = n)
    (hinfo : info.imgSzDisposed = 0 ∧ info.imgBurnSta = .preBurn) :
    Staging item n u 0 info ⟨m, store mem (transferBuf - n) (item.take n), []⟩ := by
  have hstart : groupStart u 0 = 0 := by rw [groupStart, Nat.zero_div, Nat.zero_mul]
  refine { counting := hcounting, aside := haside, left := hleft, handed := ?_, mem := ?_, state := ?_ }
  · rw [hstart]
    rfl
  · rintro _ rfl
    rw [hstart]
    exact contains_store _ _ _
  · rw [hstart, Nat.zero_mul, ImgBurnInfo.burned, if_pos rfl, ← hinfo.1, ← hinfo.2]
    rfl

/-- The loop of `optimus_burn_one_partition` is a run of the buffer manager. -/
theorem burnLoop_eq_runTransfers (hn : n ≠ 0) (hlt : n < itemSz)
    (hitem : item = load package offsetInImage itemSz) (hu : Grouped (item.drop n) u)
    (hcounting : Counting (item.drop n) u 0 m) :
    burnLoop consume src package n (itemSz - n + 1) ((itemSz - n : ℕ) : ℤ) 0 offsetInImage ⟨m, mem, []⟩
      = runTransfers consume ⟨m, store mem (transferBuf - n) (item.take n), []⟩ (item.drop n)
        (transferCount (item.drop n)) := by
  have hdrop : item.drop n = load package (offsetInImage + n) (itemSz - n) := by
    rw [hitem, drop_load]
  have htake : item.take n = load package offsetInImage n := by
    rw [hitem, take_load, min_eq_left (le_of_lt hlt)]
  have hlen : (item.drop n).length = itemSz - n := by rw [hdrop, length_load]
  have hcount := transferCount_spec (item.drop n)
  have hpos : 0 < transferCount (item.drop n) := by omega
  have hfuel : itemSz - n - 1 * 65536 < itemSz - n := by omega
  have hfirst : transferOf (item.drop n) 0 = load package (offsetInImage + n)
    (min 65536 (itemSz - n)) := by
    rw [hdrop, transferOf_load, Nat.add_zero, Nat.sub_zero]
  have hbuf := hcounting.getBuf hu hpos
  rw [hfirst, length_load, Nat.zero_sub] at hbuf
  rw [burnLoop, if_neg (by omega), thisReadLen_eq]
  dsimp only
  rw [burnStep_zero hn _ hbuf, ← hfirst, htake]
  generalize (⟨m, store mem (transferBuf - n) (load package offsetInImage n), []⟩ : Session) = s₀
  rcases hstep : s₀.transfer consume (transferOf (item.drop n) 0) with _ | s'
  · exact (runTransfers_eq_none (i := 1) hstep hpos).symm
  have hrest := (afterRead_eq (offsetInImage + n) (itemSz - n) 0).1
  rw [Nat.sub_zero] at hrest
  rw [hrest]
  exact burnLoop_eq (offsetInImage + n) (itemSz - n) hdrop (itemSz - n) 1 le_rfl hpos hfuel hstep

/-- A run of one group: nothing is handed over before the last transfer. -/
theorem runTransfers_one_group (h : Staging item n u 0 info s) (hu : Grouped (item.drop n) u)
    (hn : n ≤ 65536) (hlen : n ≤ item.length) (hone : transferCount (item.drop n) ≤ u) (i : ℕ)
    (hi : i < transferCount (item.drop n)) :
    ∃ s', runTransfers consume s (item.drop n) i = some s' ∧ Staging item n u i info s' := by
  induction i with
  | zero => exact ⟨s, rfl, h⟩
  | succ i ih =>
    obtain ⟨s', hrun, hs'⟩ := ih (Nat.lt_of_succ_lt hi)
    rw [runTransfers, hrun]
    exact hs'.transfer_collect hu (Nat.lt_of_succ_lt hi) hn hlen (by omega)

theorem s64_of_lt (h : x < 2 ^ 63) : s64 x = (x : ℤ) := by
  rw [s64, Nat.mod_eq_of_lt (by omega), if_pos h]

/-- The part of the item behind the first cluster, as a signed number. -/
theorem s64_sub (hx : x < 2 ^ 63) (hn : n ≤ 65536) : s64 (x + 2 ^ 64 - n) = (x : ℤ) - (n : ℤ) := by
  rw [s64]
  split <;> omega

/-- The partition is known, agrees with the device tree and has room for the item. -/
def Accepts (part : Option PartInfo) (itemSz : ℕ) : Prop :=
  ∃ p, part = some p ∧ itemSz ≤ p.partCap ∧ p.partCap < 2 ^ 63 ∧ p.logicCapOk = true

/-- The initialisation for a partition other than the boot loader. -/
theorem sdcBurnBufManagerInit_normal (hname : partName ≠ "bootloader") (hpos : 0 < itemSz)
    (hlt : itemSz < 2 ^ 63) : (Accepts part itemSz → sdcBurnBufManagerInit partName itemSz part n
      = (tplcmdInit .store partName 0 .normal itemSz n).map fun m => (m, ⟨false, itemSz, 0, .preBurn⟩)) ∧
      (¬ Accepts part itemSz → sdcBurnBufManagerInit partName itemSz part n = none) := by
  unfold sdcBurnBufManagerInit parseImgDownloadInfo
  rw [if_neg hname, s64_of_lt hlt]
  cases part with
  | none =>
    refine ⟨fun h => ?_, fun _ => ?_⟩
    · obtain ⟨p, hp, -⟩ := h
      cases hp
    · exact if_pos ⟨hname, .inr rfl⟩
  | some p =>
    simp only [Accepts, Option.some.injEq, exists_eq_left']
    by_cases hroom : itemSz ≤ p.partCap ∧ p.partCap < 2 ^ 63
    · rw [s64_of_lt hroom.2, if_neg (by omega), if_neg hroom.1.not_gt]
      cases p.logicCapOk with
      | true =>
        refine ⟨fun _ => ?_, fun h => absurd ⟨hroom.1, hroom.2, rfl⟩ h⟩
        cases tplcmdInit .store partName 0 .normal itemSz n with
        | none => rfl
        | some m => simp [hname]
      | false => exact ⟨fun h => absurd h.2.2 (by decide), fun _ => rfl⟩
    · refine ⟨fun h => absurd ⟨h.1, h.2.1⟩ hroom, fun _ => if_pos ⟨hname, .inl ?_⟩⟩
      have hcap : p.partCap < 2 ^ 64 := Nat.mod_lt _ (by decide)
      rw [s64]
      split <;> omega

/-- Whenever the function returns 0, exactly the item has been handed over. -/
def HandsOverItem (src : ImgSrcIf) (package mem : ℕ → UInt8) (partName : String)
    (part : Option PartInfo) (offsetInImage itemSz : ℕ) (verifyOk : Bool) : Prop :=
  ∀ offers, burnOnePartition src package mem partName part offsetInImage itemSz
    verifyOk = some offers → offers.flatMap Offer.data = load package offsetInImage itemSz

/-- The item reaches behind its first cluster, and if the rest is in whole transfers then it is in
whole groups, or cannot be burned because the bytes kept between two groups are not whole words. -/
def EndsWell (n itemSz : ℕ) : Prop :=
  n < itemSz ∧ ((itemSz - n) % 65536 = 0 → (itemSz - n) % 2 ^ 26 = 0 ∨ (2 ^ 26 < itemSz - n ∧ n % 4 ≠ 0))

variable (hn : imageItemGetFirstClusterSize src offsetInImage = n)
include hn

theorem burnOnePartition_none {verifyOk : Bool}
    (hinit : sdcBurnBufManagerInit partName itemSz part n = none) : burnOnePartition src package mem
    partName part offsetInImage itemSz verifyOk = none := by
  unfold burnOnePartition
  dsimp only
  rw [hn, hinit]
  exact ite_self none

theorem burnOnePartition_some {verifyOk : Bool}
    (hpos : itemSz ≠ 0) (hinit : sdcBurnBufManagerInit partName itemSz part n = some (m, info)) :
    burnOnePartition src package mem partName part offsetInImage itemSz verifyOk
      = burnItem src package mem offsetInImage itemSz n verifyOk m info := by
  unfold burnOnePartition
  dsimp only
  rw [hn, hinit, if_neg hpos]

omit hn

theorem burnOnePartition_unverified (offers : List Offer) :
    burnOnePartition src package mem partName part offsetInImage itemSz false ≠ some offers := by
  have hitem : ∀ n m info, burnItem src package mem offsetInImage itemSz n false m info ≠ some offers := by
    intro n m info hret
    rw [burnItem, Option.bind_eq_some_iff] at hret
    obtain ⟨s, -, hs⟩ := hret
    cases hs
  intro hret
  rcases hinit : sdcBurnBufManagerInit partName itemSz part
    (imageItemGetFirstClusterSize src offsetInImage) with _ | r
  · rw [burnOnePartition_none rfl hinit] at hret
    cases hret
  by_cases hzero : itemSz = 0
  · rw [burnOnePartition, if_pos hzero] at hret
    cases hret
  · rw [burnOnePartition_some rfl hzero hinit] at hret
    exact hitem _ _ _ hret

/-- The burning of an item that reaches behind its first cluster. -/
theorem burnItem_eq {verifyOk : Bool} (hpos : 1 ≤ n) (hle : n ≤ 65536)
    (hlt : n < itemSz) (hmax : itemSz < 2 ^ 63) (hitem : item = load package offsetInImage itemSz)
    (hu : Grouped (item.drop n) u) (hcounting : Counting (item.drop n) u 0 m) {offers : List Offer} :
    burnItem src package mem offsetInImage itemSz n verifyOk m info = some offers ↔
      verifyOk = true ∧ ∃ s, runTransfers (burnConsumer info)
        ⟨m, store mem (transferBuf - n) (item.take n), []⟩ (item.drop n)
          (transferCount (item.drop n)) = some s ∧ s.offers = offers := by
  have hleft : s64 (itemSz + 2 ^ 64 - n) = ((itemSz - n : ℕ) : ℤ) := by
    rw [s64_sub hmax hle]
    omega
  have hloop : burnLoop (burnConsumer info) src package n (itemSz - n + 1) ((itemSz - n : ℕ) : ℤ) 0
      offsetInImage ⟨m, mem, []⟩ = _ :=
    burnLoop_eq_runTransfers (ne_of_gt hpos) hlt hitem hu hcounting
  rw [burnItem, hleft, Int.toNat_natCast, hloop]
  cases runTransfers (burnConsumer info) ⟨m, store mem (transferBuf - n) (item.take n), []⟩
    (item.drop n) (transferCount (item.drop n)) with
  | none => simp
  | some s => cases verifyOk <;> simp

/-- The manager for an item that reaches behind its first cluster. -/
theorem tplcmdInit_item (hpos : 1 ≤ n) (hlt : n < item.length)
    (hmax : item.length ≤ 65536 * (2 ^ 32 - 1))
    (hboot : partName = "bootloader" → item.length - n ≤ 2 ^ 26)
    (hu : u = if partName = "bootloader" then transferCount (item.drop n) else 1024) :
    ∃ m, tplcmdInit .store partName 0 .normal item.length n = some m ∧
      Counting (item.drop n) u 0 m ∧ m.itemOffsetNotAlignClusterSz = n ∧ m.leftDataSz = n := by
  have hdrop : (item.drop n).length = item.length - n := length_drop
  have hn : n ≠ 0 := by omega
  have hunit : u = if partName = "bootloader" then transferCount (item.drop n)
      else if ImgType.normal = .sparse ∨ n ≠ 0 then 1024 else 1 := by
    rw [hu, if_pos (Or.inr hn)]
  have hinit := tplcmdInit_counting (by omega) (by omega) (by rw [hdrop]; exact hboot) 0 n hunit
  rwa [hdrop, Nat.sub_add_cancel (le_of_lt hlt)] at hinit

/-- A boot loader that the manager has no room for, or that ends within its first cluster. -/
theorem tplcmdInit_bootloader_none (hpos : 1 ≤ n) (hle : n ≤ 65536) (hmax : itemSz < 2 ^ 63)
    (hbad : ¬ (n < itemSz ∧ itemSz - n ≤ 2 ^ 26)) :
    tplcmdInit .store "bootloader" 0 .normal itemSz n = none := by
  obtain ⟨pktSz, hpkt⟩ : ∃ pktSz, pktSz = (itemSz + 2 ^ 64 - n) % 2 ^ 64 := ⟨_, rfl⟩
  have hcases : transferBufSz < pktSz ∨ pktSz = 0 := by
    rw [transferBufSz]
    omega
  simp only [tplcmdInit, ← hpkt]
  rcases hcases with hbig | hzero
  · rw [if_pos ⟨trivial, hbig⟩]
  · rw [hzero]
    rfl

/-- The boot loader is handed over as a whole, or the function fails. -/
theorem handsOverItem_bootloader (hsrc : src.ClusterOk) (hmax : itemSz ≤ 65536 * (2 ^ 32 - 1))
    (verifyOk : Bool) : HandsOverItem src package mem "bootloader" part offsetInImage itemSz verifyOk := by
  obtain ⟨hpos, hle⟩ := imageItemGetFirstClusterSize_spec hsrc offsetInImage
  generalize hn : imageItemGetFirstClusterSize src offsetInImage = n at hpos hle
  obtain ⟨item, hitem⟩ : ∃ item, item = load package offsetInImage itemSz := ⟨_, rfl⟩
  have hlen : item.length = itemSz := by rw [hitem, length_load]
  have hinit : sdcBurnBufManagerInit "bootloader" itemSz part n
      = (tplcmdInit .store "bootloader" 0 .normal itemSz n).map fun m =>
      (m, ⟨true, itemSz, 0, .preBurn⟩) := by
    unfold sdcBurnBufManagerInit parseImgDownloadInfo
    cases tplcmdInit .store "bootloader" 0 .normal itemSz n <;> rfl
  intro offers hret
  rw [← hitem]
  by_cases hfits : n < itemSz ∧ itemSz - n ≤ 2 ^ 26
  · obtain ⟨hlt, hroom⟩ := hfits
    rw [← hlen] at hlt hroom
    have hcount := transferCount_spec (item.drop n)
    rw [length_drop] at hcount
    have hu : Grouped (item.drop n) (transferCount (item.drop n)) :=
      ⟨by omega, by omega, .inr le_rfl, by omega⟩
    obtain ⟨m, hm, hcounting, haside, hleft⟩ : ∃ m, tplcmdInit .store "bootloader" 0 .normal
        _ n = some m ∧ _ :=
      tplcmdInit_item hpos hlt (by omega) (fun _ => hroom) (if_pos rfl).symm
    rw [hlen] at hm
    rw [hm] at hinit
    rw [burnOnePartition_some hn (by omega) hinit] at hret
    obtain ⟨-, s, hrun, rfl⟩ := (burnItem_eq hpos hle (hlen ▸ hlt) (by omega) hitem hu hcounting).mp hret
    obtain ⟨i, hi⟩ : ∃ i, i + 1 = transferCount (item.drop n) :=
        ⟨transferCount (item.drop n) - 1, by omega⟩
    have hstart : Staging item n _ 0 ⟨true, itemSz, 0, .preBurn⟩ _ :=
      staging_start mem hcounting haside hleft ⟨rfl, rfl⟩
    obtain ⟨s', hrun', hs'⟩ := runTransfers_one_group hstart hu hle (le_of_lt hlt) le_rfl i (le_of_eq hi)
    rw [← hi, runTransfers, hrun'] at hrun
    exact hs'.transfer_last_eq hu hi hle hlt hrun fun _ => Nat.mod_self _
  · rw [tplcmdInit_bootloader_none hpos hle (by omega) hfits] at hinit
    rw [burnOnePartition_none hn hinit] at hret
    cases hret

/-- An item that ends within its first cluster: the function returns 0 and nothing has been handed
over. -/
theorem burnItem_short (hle : itemSz ≤ n) (hn : n ≤ 65536) :
    burnItem src package mem offsetInImage itemSz n true m info = some [] := by
  have hleft : s64 (itemSz + 2 ^ 64 - n) ≤ 0 := by
    rw [s64_sub (by omega) hn]
    omega
  unfold burnItem
  dsimp only
  rw [burnLoop, if_pos hleft]
  rfl

/-- The manager is set up for every item of a partition other than the boot loader. -/
theorem tplcmdInit_isSome (itemSz : ℕ) (hname : partName ≠ "bootloader") (hpos : 1 ≤ n) :
    ∃ m, tplcmdInit .store partName 0 .normal itemSz n = some m := by
  have hn : n ≠ 0 := by omega
  obtain ⟨pktSz, hpkt⟩ : ∃ pktSz, pktSz = (itemSz + 2 ^ 64 - n) % 2 ^ 64 := ⟨_, rfl⟩
  have hunit : writeBackUnitSzOf .store partName .normal pktSz n = transferBufSz := by
    rw [writeBackUnitSzOf, if_neg (by simp [hname]), if_pos (.inr hn)]
  simp only [tplcmdInit, ← hpkt, hunit]
  rw [if_neg (fun h => hname h.1)]
  exact ⟨_, rfl⟩

/-- What the manager's counters say about the size of the item. -/
theorem endsWell_iff (hlt : n < item.length) :
    EndsWell n item.length ↔ (1024 < transferCount (item.drop n) ∧ n % 4 ≠ 0) ∨
      ((item.drop n).length % 65536 = 0 → transferCount (item.drop n) % 1024 = 0) := by
  have hcount := transferCount_spec (item.drop n)
  rw [length_drop] at hcount ⊢
  rw [EndsWell]
  omega

/-- A partition other than the boot loader that is accepted. -/
theorem handsOverItem_normal (hsrc : src.ClusterOk) (hname : partName ≠ "bootloader")
    (hpos : 0 < itemSz) (hmax : itemSz ≤ 65536 * (2 ^ 32 - 1)) (haccepts : Accepts part itemSz) :
    HandsOverItem src package mem partName part offsetInImage itemSz true ↔
      EndsWell (imageItemGetFirstClusterSize src offsetInImage) itemSz := by
  obtain ⟨hone, hle⟩ := imageItemGetFirstClusterSize_spec hsrc offsetInImage
  generalize hn : imageItemGetFirstClusterSize src offsetInImage = n at hone hle ⊢
  obtain ⟨item, hitem⟩ : ∃ item, item = load package offsetInImage itemSz := ⟨_, rfl⟩
  have hlen : item.length = itemSz := by rw [hitem, length_load]
  have hinit := (sdcBurnBufManagerInit_normal (n := n) hname hpos (by omega)).1 haccepts
  by_cases hlt : n < itemSz
  · rw [← hlen] at hlt
    have hcount := transferCount_spec (item.drop n)
    rw [length_drop] at hcount
    have hu : Grouped (item.drop n) 1024 := ⟨by decide, by decide, .inl (by decide), by omega⟩
    obtain ⟨m, hm, hcounting, haside, hleft⟩ := tplcmdInit_item hone hlt (by omega)
      (fun h => absurd h hname) (if_neg hname).symm
    rw [hlen] at hm
    rw [hm] at hinit
    have hstart : Staging item n 1024 0 ⟨false, itemSz, 0, .preBurn⟩ _ :=
      staging_start mem hcounting haside hleft ⟨rfl, rfl⟩
    have hrun := runTransfers_normal hstart hu hone hle (by omega) hlt rfl hlen.symm
    have hends := endsWell_iff hlt
    rw [hlen] at hends
    rw [hends]
    constructor
    · intro hhands
      by_cases hfail : 1024 < transferCount (item.drop n) ∧ n % 4 ≠ 0
      · exact .inl hfail
      rw [if_neg hfail] at hrun
      obtain ⟨s', hrun, hiff⟩ := hrun
      have hwhole := hhands s'.offers (by
        rw [burnOnePartition_some hn (by omega) hinit]
        exact (burnItem_eq hone hle (hlen ▸ hlt) (by omega) hitem hu hcounting).mpr ⟨rfl, s', hrun, rfl⟩)
      rw [← hitem] at hwhole
      exact .inr (hiff.mp hwhole)
    · intro hwell offers hret
      rw [burnOnePartition_some hn (by omega) hinit] at hret
      obtain ⟨-, s, hs, rfl⟩ := (burnItem_eq hone hle (hlen ▸ hlt) (by omega) hitem hu hcounting).mp hret
      rw [← hitem]
      split at hrun
      · rw [hrun] at hs
        cases hs
      next hok =>
      obtain ⟨s', hrun, hiff⟩ := hrun
      rw [hrun, Option.some.injEq] at hs
      rw [← hs]
      exact hiff.mpr (hwell.resolve_left hok)
  · obtain ⟨m, hm⟩ := tplcmdInit_isSome itemSz hname hone
    rw [hm] at hinit
    refine iff_of_false (fun hhands => ?_) (fun hwell => hlt hwell.1)
    have hnil := hhands [] (by
      rw [burnOnePartition_some hn (by omega) hinit]
      exact burnItem_short (not_lt.mp hlt) hle)
    rw [← hitem] at hnil
    rw [← hnil] at hlen
    exact absurd hlen (ne_of_lt hpos)

/-- For every item of less than 256 TiB, every cluster size and every partition: a return value of 0
means that exactly the item has been handed over, if and only if the verification fails anyway, the
item is the boot loader, the partition is refused, or the item ends well. -/
theorem handsOverItem_iff (src : ImgSrcIf) (package mem : ℕ → UInt8) (partName : String)
    (part : Option PartInfo) (offsetInImage itemSz : ℕ) (verifyOk : Bool) (hsrc : src.ClusterOk)
    (hpos : 1 ≤ itemSz) (hmax : itemSz ≤ 65536 * (2 ^ 32 - 1)) :
    HandsOverItem src package mem partName part offsetInImage itemSz verifyOk ↔
      verifyOk = false ∨ partName = "bootloader" ∨ ¬ Accepts part itemSz ∨
        EndsWell (imageItemGetFirstClusterSize src offsetInImage) itemSz := by
  by_cases hname : partName = "bootloader"
  · rw [hname]
    exact iff_of_true (handsOverItem_bootloader hsrc hmax verifyOk) (.inr (.inl rfl))
  by_cases haccepts : Accepts part itemSz
  · cases verifyOk with
    | true =>
      rw [handsOverItem_normal hsrc hname hpos hmax haccepts]
      simp [hname, haccepts]
    | false =>
      refine iff_of_true (fun offers hret => ?_) (.inl rfl)
      exact absurd hret (burnOnePartition_unverified offers)
  · refine iff_of_true (fun offers hret => ?_) (.inr (.inr (.inl haccepts)))
    rw [burnOnePartition_none rfl ((sdcBurnBufManagerInit_normal hname hpos (by omega)).2
      haccepts)] at hret
    cases hret

end Item

/-- A package of zeros on a FAT file system with clusters of 4 KiB, and a partition of 32 MiB: an
item of 100000 bytes at the beginning of the package. -/
theorem handsOverItem_iff_two_transfers :
    HandsOverItem (.fat 8) (fun _ => 0) (fun _ => 0) "boot" (some ⟨65536, true⟩) 0 100000 true ↔
      true = false ∨ "boot" = "bootloader" ∨ ¬ Accepts (some ⟨65536, true⟩) 100000 ∨
        EndsWell (imageItemGetFirstClusterSize (.fat 8) 0) 100000 :=
  handsOverItem_iff (.fat 8) (fun _ => 0) (fun _ => 0) "boot" (some ⟨65536, true⟩) 0
    100000 true ⟨3, rfl⟩ (by decide) (by decide)

/-- An item of 100 bytes at the beginning of the package is not handed over at all, and the function
returns
0. -/
theorem not_handsOverItem_short :
    burnOnePartition (.fat 8) (fun _ => 0) (fun _ => 0) "boot" (some ⟨65536, true⟩) 0 100 true = some [] ∧
      ¬ HandsOverItem (.fat 8) (fun _ => 0) (fun _ => 0) "boot" (some ⟨65536, true⟩) 0 100 true := by
  have hname : "boot" ≠ "bootloader" := by decide
  have haccepts : Accepts (some ⟨65536, true⟩) 100 := ⟨_, rfl, by decide, by decide, rfl⟩
  have hinit := (sdcBurnBufManagerInit_normal (n := 4096) hname (by decide) (by decide)).1 haccepts
  have hret : burnOnePartition (.fat 8) (fun _ => 0) (fun _ => 0) "boot" (some ⟨65536, true⟩) 0 100
    true = some [] := by
    rw [burnOnePartition_some rfl (by decide) hinit]
    exact burnItem_short (by decide) (by decide)
  refine ⟨hret, fun hhands => ?_⟩
  have hlength := congrArg length (hhands [] hret)
  cases hlength

end UBoot.Burning
