import UBoot.Common.Memory
import Mathlib.Data.Nat.Bitwise

/-!
# Items of a burning package

A package is a list of items, each a range of bytes, in a partition or in a file on a card. Opening
an item seeks to its start, and `image_item_read` reads on from there. Partitions are read in blocks
of `devAlignSz` bytes: a read that starts inside a block takes its first bytes from a copy of that
block.
-/

namespace UBoot.Burning.Img

open UBoot.Common

/-- `ItemInfo`, without `curoffsetInItem`, which is never used. -/
structure ItemInfo where
  itemId : ℕ
  fileType : ℕ
  offsetInImage : ℕ
  itemSz : ℕ
  itemMainType : List UInt8
  itemSubType : List UInt8
deriving DecidableEq

/-- `ImgInfo_t`: whether the package is in a partition (`IMAGE_IF_TYPE_STORE`), the bytes of the
partition or of the file, and the items of the header. -/
structure ImgInfo where
  store : Bool
  bytes : ℕ → UInt8
  items : List ItemInfo

/-- `theItem`, the item the static variable of `image_item_get_item_info_byid` holds, and the
position of the next read: `itemCurSeekOffsetInImg` for a partition, the position in the file
otherwise. -/
structure ImgState where
  theItem : Option ItemInfo
  pos : ℕ
deriving DecidableEq

/-- `IMG_OFFSET_IN_PART`. -/
def imgOffsetInPart : ℕ := 0

/-- `devAlignSz` of a partition. -/
def storeBlkSz : ℕ := 4096

/-! ## Opening -/

/-- The loop of `image_item_open`: the index of the item if it is found, and what is in
`theItem`. -/
def openLoop (mainType subType : List UInt8) : ℕ → Option ItemInfo → List ItemInfo →
    Option ℕ × Option ItemInfo
  | _, theItem, [] => (none, theItem)
  | i, _, item :: items =>
    if mainType = item.itemMainType ∧ subType = item.itemSubType then (some i, some item)
    else openLoop mainType subType (i + 1) (some item) items

/-- `image_item_open`: whether a handle is returned. `seekOk` is the outcome of `do_fat_fseek`. -/
def imageItemOpen (img : ImgInfo) (st : ImgState) (mainType subType : List UInt8) (seekOk : Bool) :
    Bool × ImgState :=
  match openLoop mainType subType 0 st.theItem img.items with
  | (some i, some item) =>
    if i ≠ item.itemId then (false, { st with theItem := some item })
    else if !img.store && !seekOk then (false, { st with theItem := some item })
    else (true, ⟨some item, item.offsetInImage⟩)
  | (_, theItem) => (false, { st with theItem := theItem })

/-! ## Reading -/

/-- The reads of `image_item_read` in a partition; `ok₁` and `ok₂` are the outcomes of the calls of
`store_read_ops`. -/
def storeRead (part : ℕ → UInt8) (pos wantSz : ℕ) (ok₁ ok₂ : Bool) : Option (List UInt8) :=
  let offsetInPart := (pos + imgOffsetInPart) % 2 ^ 64
  let offsetNotAlign := offsetInPart &&& (storeBlkSz - 1)
  let sizeNotAlignInFirstBlk := storeBlkSz - offsetNotAlign
  if offsetNotAlign ≠ 0 then
    let bufLen := if sizeNotAlignInFirstBlk < wantSz then sizeNotAlignInFirstBlk else wantSz
    if !ok₁ then none
    else
      let first := ((load part (offsetInPart - offsetNotAlign) storeBlkSz).drop offsetNotAlign).take bufLen
      if sizeNotAlignInFirstBlk < wantSz then
        if !ok₂ then none
        else some (first ++ load part ((offsetInPart + sizeNotAlignInFirstBlk) % 2 ^ 64) (wantSz - bufLen))
      else some first
  else if !ok₁ then none
  else some (load part offsetInPart wantSz)

/-- How the transfers of a read end: the outcomes of the calls of `store_read_ops`, and the bytes
that `do_fat_fread` reads. -/
structure Transfers where
  ok₁ : Bool
  ok₂ : Bool
  readSz : ℕ

/-- `image_item_read`: the bytes, or `none` for an error. In a file also a read that ends early has
moved the position. -/
def imageItemRead (img : ImgInfo) (st : ImgState) (wantSz : ℕ) (t : Transfers) :
    Option (List UInt8) × ImgState :=
  if img.store then
    match storeRead img.bytes st.pos wantSz t.ok₁ t.ok₂ with
    | none => (none, st)
    | some bytes => (some bytes, { st with pos := (st.pos + wantSz) % 2 ^ 64 })
  else if t.readSz < wantSz then (none, { st with pos := st.pos + t.readSz })
  else (some (load img.bytes st.pos wantSz), { st with pos := st.pos + wantSz })

/-- Where a package begins on its medium. -/
def ImgInfo.base (img : ImgInfo) : ℕ := if img.store then imgOffsetInPart else 0

/-- The bytes of an item in the package. -/
def itemBytes (img : ImgInfo) (item : ItemInfo) : List UInt8 :=
  load img.bytes (item.offsetInImage + img.base) item.itemSz

/-! ## What a read delivers -/

variable {part : ℕ → UInt8} {img : ImgInfo} {st : ImgState} {pos wantSz : ℕ} {ok₁ ok₂ : Bool}
    {bytes : List UInt8}

theorem drop_take_load (mem : ℕ → UInt8) (a : ℕ) {k n m : ℕ} (h : k + n ≤ m) :
    ((load mem a m).drop k).take n = load mem (a + k) n := by
  rw [drop_load, take_load, min_eq_left (by omega)]

/-- A read in a partition delivers the bytes from its position on, aligned or not. -/
theorem storeRead_eq (h : storeRead part pos wantSz ok₁ ok₂ = some bytes)
    (hfits : pos + imgOffsetInPart + wantSz < 2 ^ 64) :
    bytes = load part (pos + imgOffsetInPart) wantSz := by
  rw [storeRead] at h
  rw [Nat.mod_eq_of_lt (by omega)] at h
  have hmask : ∀ n, n &&& (storeBlkSz - 1) = n % storeBlkSz := fun n => Nat.and_two_pow_sub_one_eq_mod n 12
  rw [hmask] at h
  generalize pos + imgOffsetInPart = off at *
  have hmod : off % storeBlkSz < storeBlkSz := Nat.mod_lt _ (by decide)
  have hle : off % storeBlkSz ≤ off := Nat.mod_le _ _
  by_cases hal : off % storeBlkSz ≠ 0
  · rw [if_pos hal] at h
    rcases ok₁ with _ | _
    · cases h
    rw [Bool.not_true, if_neg Bool.false_ne_true] at h
    by_cases hcross : storeBlkSz - off % storeBlkSz < wantSz
    · have hnext : (off + (storeBlkSz - off % storeBlkSz)) % 2 ^ 64 = off +
          (storeBlkSz - off % storeBlkSz) :=
        Nat.mod_eq_of_lt (by omega)
      rw [if_pos hcross, if_pos hcross, drop_take_load _ _ (by omega), Nat.sub_add_cancel hle, hnext] at h
      cases ok₂ with
      | false => cases h
      | true =>
        rw [Bool.not_true, if_neg Bool.false_ne_true, load_append, Option.some.injEq,
          Nat.add_sub_cancel' hcross.le] at h
        exact h.symm
    · rw [if_neg hcross, if_neg hcross, drop_take_load _ _ (by omega), Nat.sub_add_cancel hle] at h
      exact (Option.some.inj h).symm
  · rw [if_neg hal] at h
    cases ok₁ with
    | false => cases h
    | true => exact (Option.some.inj h).symm

/-- A read in a partition fails and leaves everything as it was, or delivers the bytes at the
position and moves behind them. -/
theorem imageItemRead_store (hstore : img.store = true) (t : Transfers)
    (hfits : st.pos + img.base + wantSz < 2 ^ 64) :
    imageItemRead img st wantSz t = (none, st) ∨ imageItemRead img st wantSz t =
      (some (load img.bytes (st.pos + img.base) wantSz), { st with pos := st.pos + wantSz }) := by
  rw [ImgInfo.base, if_pos hstore] at hfits ⊢
  rw [imageItemRead, if_pos hstore]
  cases hread : storeRead img.bytes st.pos wantSz t.ok₁ t.ok₂ with
  | none => exact .inl rfl
  | some bytes =>
    rw [storeRead_eq hread hfits]
    exact .inr (by dsimp only; rw [Nat.mod_eq_of_lt (by omega)])

/-! ## A sequence of reads -/

/-- One call of `image_item_read`. -/
structure ReadCall extends Transfers where
  wantSz : ℕ

/-- The results of a sequence of reads, and the state behind it. -/
def readRun (img : ImgInfo) : ImgState → List ReadCall → List (Option (List UInt8)) × ImgState
  | st, [] => ([], st)
  | st, call :: calls =>
    let (out, st') := imageItemRead img st call.wantSz call.toTransfers
    let (outs, st'') := readRun img st' calls
    (out :: outs, st'')

/-- The buffers of the reads that succeeded, one behind the other. -/
def delivered (outs : List (Option (List UInt8))) : List UInt8 := (outs.filterMap id).flatten

/-- The sum of the sizes asked for by the calls that succeeded. -/
def succeededSz (calls : List ReadCall) (outs : List (Option (List UInt8))) : ℕ :=
  (List.zipWith (fun call out => if Option.isSome out then call.wantSz else 0) calls outs).sum

/-- The reads deliver the bytes from the position on, without gaps. -/
theorem delivered_readRun (hstore : img.store = true) (calls : List ReadCall) (st : ImgState)
    (hfits : st.pos + img.base + (calls.map ReadCall.wantSz).sum < 2 ^ 64) :
    let (outs, st') := readRun img st calls
    succeededSz calls outs ≤ (calls.map ReadCall.wantSz).sum ∧
      delivered outs = load img.bytes (st.pos + img.base) (succeededSz calls outs) ∧
      st'.pos = st.pos + succeededSz calls outs := by
  induction calls generalizing st with
  | nil => exact ⟨le_rfl, rfl, rfl⟩
  | cons call calls ih =>
    rw [List.map_cons, List.sum_cons] at hfits ⊢
    have hfirst : st.pos + img.base + call.wantSz < 2 ^ 64 := by omega
    rcases imageItemRead_store hstore call.toTransfers hfirst with hread | hread
    · obtain ⟨hle, hdel, hpos⟩ := ih st (by omega)
      have hsz : ∀ outs, succeededSz (call :: calls) (none :: outs) = succeededSz calls outs :=
        fun outs => by
        rw [succeededSz, List.zipWith_cons_cons, List.sum_cons]
        exact zero_add _
      simp only [readRun, hread, hsz]
      exact ⟨by omega, hdel, hpos⟩
    · obtain ⟨hle, hdel, hpos⟩ := ih { st with pos := st.pos + call.wantSz } (by dsimp only; omega)
      have hsz : ∀ bytes outs,
          succeededSz (call :: calls) (some bytes :: outs) = call.wantSz + succeededSz calls outs :=
          fun _ _ => rfl
      simp only [readRun, hread, hsz]
      refine ⟨by omega, ?_, by rw [hpos]; dsimp only; omega⟩
      rw [← load_append, show st.pos + img.base + call.wantSz = st.pos + call.wantSz +
        img.base by omega, ← hdel]
      rfl

/-- A handle comes with the position of its item. -/
theorem imageItemOpen_true {st' : ImgState} {mainType subType : List UInt8} {seekOk : Bool}
    (h : imageItemOpen img st mainType subType seekOk = (true, st')) :
    ∃ item, st' = ⟨some item, item.offsetInImage⟩ := by
  rw [imageItemOpen] at h
  split at h
  · next i item _ =>
    split at h
    · cases (Prod.mk.inj h).1
    · split at h
      · cases (Prod.mk.inj h).1
      · exact ⟨item, (Prod.mk.inj h).2.symm⟩
  · cases (Prod.mk.inj h).1

/-- After opening an item of a package in a partition, the reads that succeed deliver the item from
its start on, as much of it as they ask for, and a read that fails leaves the position where it
was. -/
theorem delivered_eq_take {img : ImgInfo} (hstore : img.store = true) {st st' : ImgState}
    {mainType subType : List UInt8} {seekOk : Bool} {item : ItemInfo}
    (hopen : imageItemOpen img st mainType subType seekOk = (true, st')) (hitem : st'.theItem = some item)
    (hpart : item.offsetInImage + img.base + item.itemSz < 2 ^ 64)
    (calls : List ReadCall) (hsum : (calls.map ReadCall.wantSz).sum ≤ item.itemSz) :
    delivered (readRun img st' calls).1 = (itemBytes img item).take
      (succeededSz calls (readRun img st' calls).1) ∧ (readRun img st' calls).2.pos =
      item.offsetInImage + succeededSz calls (readRun img st' calls).1 ∧
      ∀ st wantSz t, (imageItemRead img st wantSz t).1 = none →
        (imageItemRead img st wantSz t).2 = st := by
  obtain ⟨item', rfl⟩ := imageItemOpen_true hopen
  obtain rfl := Option.some.inj hitem
  obtain ⟨hle, hdel, hpos⟩ :=
    delivered_readRun hstore calls ⟨some item', item'.offsetInImage⟩ (by dsimp only; omega)
  refine ⟨?_, hpos, fun st wantSz t hnone => ?_⟩
  · rw [hdel, itemBytes, take_load, min_eq_left (hle.trans hsum)]
  · rw [imageItemRead, if_pos hstore] at hnone ⊢
    cases hread : storeRead img.bytes st.pos wantSz t.ok₁ t.ok₂ with
    | none => rfl
    | some bytes =>
      rw [hread] at hnone
      cases hnone

/-- A package of two items in a partition, the second one not at the start of a block. -/
def samplePackage : ImgInfo where
  store := true
  bytes := fun a => UInt8.ofNat a
  items := [⟨0, 0, 8192, 512, [97], [98]⟩, ⟨1, 1, 4094, 10, [99], [100]⟩]

/-- Three reads of the second item, of which the second one fails: seven bytes from two blocks. -/
theorem delivered_samplePackage :
    delivered (readRun samplePackage ⟨some ⟨1, 1, 4094, 10, [99], [100]⟩, 4094⟩
        [⟨⟨true, true, 0⟩, 3⟩, ⟨⟨false, true, 0⟩, 2⟩, ⟨⟨true, true, 0⟩, 4⟩]).1 =
      (itemBytes samplePackage ⟨1, 1, 4094, 10, [99], [100]⟩).take 7 := by
  have hopen : imageItemOpen samplePackage ⟨none, 0⟩ [99] [100] true =
      (true, ⟨some ⟨1, 1, 4094, 10, [99], [100]⟩, 4094⟩) := by decide
  exact (delivered_eq_take rfl hopen rfl (by decide) _ (by decide)).1

end UBoot.Burning.Img
