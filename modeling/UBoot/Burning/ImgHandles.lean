import UBoot.Burning.ImgDecoder
import UBoot.Common.Run

/-!
# Several open items of a package

A handle is the address of one static `ItemInfo`, and all reads share one position. What is expected
of a call, and what the static item and the position hold, are both told from the calls made before
it; the replies of a run are right exactly as long as the two agree.
-/

namespace UBoot.Burning.Img

open UBoot.Common List

/-- A call on the package. Handles are counted in the order of the opens that returned one; `seekOk`
is the outcome of the seek of an open, and `readSz` are the bytes that the transfers of a read
get. -/
inductive ItemCall where
  | open (mainType subType : List UInt8) (seekOk : Bool)
  | getSize (handle : ℕ)
  | getType (handle : ℕ)
  | read (handle wantSz readSz : ℕ)
  | close (handle : ℕ)

section

variable (img : ImgInfo)

/-- `image_item_get_size`: what the static item holds, zeros before it is written. -/
def imageItemGetSize (st : ImgState) : ℕ := st.theItem.elim 0 ItemInfo.itemSz

/-- `image_item_get_type`. -/
def imageItemGetType (st : ImgState) : ℕ := st.theItem.elim 0 ItemInfo.fileType

/-- `image_item_read`, with transfers that get all bytes or fail. -/
def readCall (st : ImgState) (wantSz readSz : ℕ) : Option (List UInt8) × ImgState :=
  imageItemRead img st wantSz ⟨wantSz ≤ readSz, wantSz ≤ readSz, readSz⟩

/-- What a call does to the variables of the decoder. `image_item_close` does nothing. -/
def callStep (st : ImgState) : ItemCall → ImgState
  | .open mainType subType seekOk => (imageItemOpen img st mainType subType seekOk).2
  | .read _ wantSz readSz => (readCall img st wantSz readSz).2
  | _ => st

/-- The variables after some calls. -/
def stateAfter (past : List ItemCall) : ImgState := past.foldl (callStep img) ⟨none, 0⟩

/-! ## What the caller expects -/

/-- The item of a request is the first one with the two names. -/
def names (mainType subType : List UInt8) (item : ItemInfo) : Bool :=
  mainType = item.itemMainType ∧ subType = item.itemSubType

/-- The item a request opens, if it does: the item has to carry its index, and the seek in a file
has to succeed. -/
def opens (mainType subType : List UInt8) (seekOk : Bool) : Option ItemInfo :=
  match img.items.find? (names mainType subType) with
  | none => none
  | some item =>
    if img.items.findIdx (names mainType subType) = item.itemId ∧
      (img.store ∨ seekOk) then some item else none

/-- The item that a call opens. -/
def openedBy : ItemCall → Option ItemInfo
  | .open mainType subType seekOk => opens img mainType subType seekOk
  | _ => none

/-- The items the handles were opened for. -/
def handles (past : List ItemCall) : List ItemInfo := past.filterMap (openedBy img)

/-- How much has been read through a handle. -/
def readSoFar (h : ℕ) (past : List ItemCall) : ℕ :=
  (past.map fun
    | .read h' wantSz readSz => if h' = h ∧ wantSz ≤ readSz then wantSz else 0
    | _ => 0).sum

/-- The reply to a call is about the item the handle was opened for: its size, its type, or its next
bytes. -/
def Right (past : List ItemCall) : ItemCall → Prop
  | .getSize h => ∀ x ∈ (handles img past)[h]?, imageItemGetSize (stateAfter img past) = x.itemSz
  | .getType h => ∀ x ∈ (handles img past)[h]?, imageItemGetType (stateAfter img past) = x.fileType
  | .read h wantSz readSz => ∀ x ∈ (handles img past)[h]?,
      ∀ bytes, (readCall img (stateAfter img past) wantSz readSz).1 = some bytes →
        readSoFar h past + wantSz ≤ x.itemSz ∧
          bytes = load img.bytes (x.offsetInImage + readSoFar h past + img.base) wantSz
  | _ => True

/-- All replies of a run are, each with the calls made before it. -/
def Independent (calls : List ItemCall) : Prop := Guarded (fun past call => past ++ [call])
    (Right img) [] calls

/-! ## What the calls leave behind -/

/-- The item a request looks at last: the one it finds, or the last one of the package. -/
def looks (mainType subType : List UInt8) : Option ItemInfo :=
  (img.items.find? (names mainType subType)).or img.items.getLast?

/-- The item that a call looks at. -/
def lookedBy : ItemCall → Option ItemInfo
  | .open mainType subType _ => looks img mainType subType
  | _ => none

/-- The item that the last open has looked at, whether or not it has returned a handle. -/
def lookedAt (past : List ItemCall) : Option ItemInfo := (past.filterMap (lookedBy img)).getLast?

/-- How far a call moves the position: a read by what it has got, which in a partition is all or
nothing. -/
def moved : ItemCall → ℕ
  | .read _ wantSz readSz => if wantSz ≤ readSz then wantSz else if img.store then 0 else readSz
  | _ => 0

/-- The offset of the item opened last, and all that was read since, through whichever handle. -/
def position (past : List ItemCall) : ℕ :=
  (handles img past).getLast?.elim 0 ItemInfo.offsetInImage +
    ((past.reverse.takeWhile fun call => (openedBy img call).isNone).map (moved img)).sum

/-- The item looked at last has the size or type of the handle's item; a read that gets all its
bytes stays in the handle's item, and at the position there are the same bytes as behind those read
through the handle. -/
def Undisturbed (past : List ItemCall) : ItemCall → Prop
  | .getSize h => ∀ x ∈ (handles img past)[h]?, (lookedAt img past).elim 0 ItemInfo.itemSz = x.itemSz
  | .getType h => ∀ x ∈ (handles img past)[h]?, (lookedAt img past).elim 0 ItemInfo.fileType = x.fileType
  | .read h wantSz readSz => ∀ x ∈ (handles img past)[h]?, wantSz ≤ readSz →
      readSoFar h past + wantSz ≤ x.itemSz ∧ load img.bytes (position img past + img.base) wantSz =
        load img.bytes (x.offsetInImage + readSoFar h past + img.base) wantSz
  | _ => True

/-- A read that gets all its bytes ends inside the medium, whose size is a number of 64 bits. -/
def OnMedium (past : List ItemCall) : ItemCall → Prop
  | .read _ wantSz readSz => wantSz ≤ readSz → position img past + img.base + wantSz < 2 ^ 64
  | _ => True

end

/-! ## The decoder follows the calls -/

variable {img : ImgInfo} {st : ImgState} {past : List ItemCall} {call : ItemCall}
  {mainType subType : List UInt8} {seekOk : Bool} {wantSz readSz : ℕ}

theorem openLoop_eq (k : ℕ) (cur : Option ItemInfo) (items : List ItemInfo) :
    openLoop mainType subType k cur items = match items.find? (names mainType subType) with
      | none => (none, items.getLast?.or cur)
      | some item => (some (k + items.findIdx (names mainType subType)), some item) := by
  induction items generalizing k cur with
  | nil => rfl
  | cons item items ih =>
    rw [openLoop]
    by_cases h : mainType = item.itemMainType ∧ subType = item.itemSubType
    · have hn : names mainType subType item = true := by simpa [names] using h
      rw [if_pos h, find?_cons_of_pos hn, findIdx_cons, hn]
      rfl
    · have hn : names mainType subType item = false := by simpa [names] using h
      rw [if_neg h, ih, find?_cons_of_neg (by rw [hn]; decide), findIdx_cons, hn]
      cases items.find? (names mainType subType) with
      | none => simp [getLast?_cons]
      | some found =>
        simp only [cond_false, Prod.mk.injEq, Option.some.injEq, and_true]
        omega

theorem looks_of_opens {item : ItemInfo} (h : opens img mainType subType seekOk = some item) :
    looks img mainType subType = some item := by
  rw [opens] at h
  rw [looks]
  split at h
  · cases h
  · next found hfound =>
    split at h
    · rw [hfound, Option.some.inj h]
      rfl
    · cases h

/-- What `image_item_open` does, in terms of the items. -/
theorem imageItemOpen_eq :
    imageItemOpen img st mainType subType seekOk = match opens img mainType subType seekOk with
      | none => (false, { st with
          theItem := (looks img mainType subType).or st.theItem })
      | some item => (true, ⟨some item, item.offsetInImage⟩) := by
  rw [imageItemOpen, openLoop_eq, opens, looks]
  rcases img.items.find? (names mainType subType) with _ | item
  · rfl
  dsimp only
  rw [zero_add]
  by_cases hid : img.items.findIdx (names mainType subType) = item.itemId
  · cases img.store <;> cases seekOk <;> simp [hid]
  · rw [if_pos hid, if_neg fun h => hid h.1]
    simp

theorem storeRead_isSome (part : ℕ → UInt8) (pos wantSz : ℕ) (ok : Bool) :
    (storeRead part pos wantSz ok ok).isSome = ok := by
  rw [storeRead]
  rcases ok with _ | _
  · rw [Bool.not_false, if_pos rfl, if_pos rfl, ite_self, Option.isSome_none]
  split
  · split <;> rfl
  · rfl

/-- A read that does not get all its bytes. -/
theorem readCall_of_lt (h : readSz < wantSz) :
    readCall img st wantSz readSz = (none,
    { st with pos := st.pos + moved img (.read 0 wantSz readSz) }) := by
  rw [readCall, imageItemRead, moved, if_neg h.not_ge]
  have hnone := storeRead_isSome img.bytes st.pos wantSz (decide (wantSz ≤ readSz))
  rw [decide_eq_false h.not_ge, Option.isSome_eq_false_iff, Option.isNone_iff_eq_none] at hnone
  by_cases hstore : img.store = true
  · rw [if_pos hstore, if_pos hstore, decide_eq_false h.not_ge, hnone]
    rfl
  · rw [if_neg hstore, if_neg hstore, if_pos h]

/-- A read that gets all its bytes. -/
theorem readCall_of_le (h : wantSz ≤ readSz) (hfits : st.pos + img.base + wantSz < 2 ^ 64) :
    readCall img st wantSz readSz =
      (some (load img.bytes (st.pos + img.base) wantSz), { st with pos := st.pos + wantSz }) := by
  by_cases hstore : img.store = true
  · refine (imageItemRead_store hstore _ hfits).resolve_left fun hread => ?_
    have hsome := storeRead_isSome img.bytes st.pos wantSz (decide (wantSz ≤ readSz))
    rw [imageItemRead, if_pos hstore] at hread
    cases hstored : storeRead img.bytes st.pos wantSz (decide (wantSz ≤ readSz))
      (decide (wantSz ≤ readSz)) with
    | none =>
      rw [hstored, decide_eq_true h] at hsome
      cases hsome
    | some bytes =>
      rw [hstored] at hread
      cases (Prod.mk.inj hread).1
  · rw [readCall, imageItemRead, if_neg hstore, if_neg h.not_gt, ImgInfo.base, if_neg hstore]
    rfl

theorem position_append (past : List ItemCall) (call : ItemCall) :
    position img (past ++ [call]) =
      (openedBy img call).elim (position img past + moved img call) ItemInfo.offsetInImage := by
  rw [position, position, handles, handles, filterMap_append, reverse_append, reverse_singleton,
    singleton_append]
  cases hopen : openedBy img call with
  | none =>
    rw [filterMap_cons_none hopen, filterMap_nil, append_nil, takeWhile_cons_of_pos
      (by rw [hopen]; rfl), map_cons,
      sum_cons, Option.elim_none]
    omega
  | some item =>
    rw [filterMap_cons_some hopen, filterMap_nil, getLast?_concat, takeWhile_cons_of_neg
      (by rw [hopen]; exact Bool.false_ne_true)]
    rfl

theorem lookedAt_append (past : List ItemCall) (call : ItemCall) :
    lookedAt img (past ++ [call]) = (lookedBy img call).or (lookedAt img past) := by
  rw [lookedAt, lookedAt, filterMap_append, getLast?_append]
  cases hlook : lookedBy img call with
  | none => rw [filterMap_cons_none hlook]; rfl
  | some item => rw [filterMap_cons_some hlook]; rfl

/-- The static item and the position are told from the calls. -/
theorem stateAfter_append (hinv : stateAfter img past = ⟨lookedAt img past, position img past⟩)
    (h : OnMedium img past call) :
    stateAfter img (past ++ [call]) = ⟨lookedAt img (past ++ [call]), position img (past ++ [call])⟩ := by
  rw [stateAfter, foldl_append, foldl_cons, foldl_nil, show past.foldl _ _ = stateAfter img
    past from rfl, hinv, position_append, lookedAt_append]
  cases call with
  | «open» mainType subType seekOk =>
    rw [callStep, imageItemOpen_eq, openedBy]
    cases hopen : opens img mainType subType seekOk with
    | none => rfl
    | some item => rw [lookedBy, looks_of_opens hopen]; rfl
  | read handle wantSz readSz =>
    rw [callStep]
    by_cases hle : wantSz ≤ readSz
    · rw [readCall_of_le hle (h hle), moved, if_pos hle]
      rfl
    · rw [readCall_of_lt (not_le.mp hle)]
      rfl
  | getSize | getType | close => rfl

/-- One reply is right exactly when the call is undisturbed. -/
theorem right_iff (hinv : stateAfter img past = ⟨lookedAt img past, position img past⟩)
    (h : OnMedium img past call) : Right img past call ↔ Undisturbed img past call := by
  cases call with
  | read handle wantSz readSz =>
    rw [Right, Undisturbed, hinv]
    by_cases hle : wantSz ≤ readSz
    · have hread : readCall img ⟨lookedAt img past, position img past⟩ wantSz readSz = _ :=
          readCall_of_le hle (h hle)
      simp only [hread, Option.some.injEq, forall_eq', hle, forall_const]
    · simp [readCall_of_lt (not_le.mp hle), hle]
  | getSize | getType => rw [Right, hinv]; rfl
  | «open» | close => exact Iff.rfl

/-- The replies of a run are about the items of the handles exactly when every call of it is
undisturbed. -/
theorem independent_iff (img : ImgInfo) (calls : List ItemCall)
    (h : Guarded (fun past call => past ++ [call]) (OnMedium img) [] calls) :
    Independent img calls ↔ Guarded (fun past call => past ++ [call]) (Undisturbed img) [] calls :=
  Guarded.congr (fun _ _ hinv hcall => right_iff hinv hcall)
    (fun _ _ hinv hcall _ => stateAfter_append hinv hcall) rfl h

/-- The second item is opened and read, then the first one. -/
theorem independent_samplePackage : Independent samplePackage
    [.open [99] [100] true, .getSize 0, .read 0 3 3, .read 0 4 2, .open [97] [98] true,
    .getType 1, .read 1 2 2] :=
  (independent_iff samplePackage _ (by simp [Guarded, OnMedium]; decide)).mpr
    (by simp [Guarded, Undisturbed]; decide)

/-- The size of the second item, asked for after the first one has been opened, is that of the first
one. -/
theorem not_independent_samplePackage : ¬ Independent samplePackage
    [.open [99] [100] true, .open [97] [98] true, .getSize 0] := by
  intro h
  exact absurd (h.2.2.1 _ rfl) (by decide)

end UBoot.Burning.Img
