import UBoot.Burning.BufferManager

/-!
# What the buffer manager offers

Over a whole download, the consumer is offered the packet in order and exactly once, apart from the
tails that it leaves itself. `Receiving` is the invariant before each transfer: what has been taken,
the tail and the collected transfers make up the part of the packet that has been received.
-/

namespace UBoot.Burning

open UBoot.Common List

/-! ## What is asked of the consumer and of the manager -/

/-- What the consumer has taken. -/
def deliveredBy (offers : List Offer) : List UInt8 := offers.flatMap fun o => o.data.take o.burnSz

/-- The size of what the last call of the consumer has left. -/
def lastTail (offers : List Offer) : ℕ :=
  match offers.getLast? with
  | none => 0
  | some o => o.data.length - o.burnSz

/-- Every offer goes on with the received data right behind what had been taken. -/
def OffersOk (received : List UInt8) (offers : List Offer) : Prop :=
  ∀ pre o post, offers = pre ++ o :: post → (deliveredBy pre ++ o.data).IsPrefix received

/-- A consumer that takes more at each call than it left at the one before, that leaves at most 2
MiB in whole words, and that leaves nothing of the end of the packet. -/
structure ConsumerOk (packet : List UInt8) (consume : List Offer → List UInt8 → ℕ) : Prop where
  le : ∀ offers data, consume offers data ≤ data.length
  more : ∀ offers data, lastTail offers < data.length → lastTail offers < consume offers data
  tail_le : ∀ offers data, data.length - consume offers data ≤ leftDataMaxSz
  tail_dvd : ∀ offers data, (data.length - consume offers data) % 4 = 0
  last : ∀ offers data, deliveredBy offers ++ data = packet → consume offers data = data.length

theorem deliveredBy_append (offers : List Offer) (o : Offer) :
    deliveredBy (offers ++ [o]) = deliveredBy offers ++ o.data.take o.burnSz := by
  rw [deliveredBy, flatMap_append, flatMap_singleton]
  rfl

theorem lastTail_append (offers : List Offer) (o : Offer) :
    lastTail (offers ++ [o]) = o.data.length - o.burnSz := by
  rw [lastTail, getLast?_concat]

variable {offers : List Offer} {mem : ℕ → UInt8} {data : List UInt8}

theorem OffersOk.mono {received received' : List UInt8}
    (h : OffersOk received offers) (hpre : received.IsPrefix received') : OffersOk received' offers :=
  fun pre o post heq => (h pre o post heq).trans hpre

theorem OffersOk.append {received : List UInt8} {o : Offer}
    (h : OffersOk received offers) (ho : (deliveredBy offers ++ o.data).IsPrefix received) :
    OffersOk received (offers ++ [o]) := by
  intro pre o' post heq
  rcases eq_nil_or_concat post with rfl | ⟨post', x, rfl⟩
  · obtain ⟨rfl, ho'⟩ := append_inj' heq rfl
    cases ho'
    exact ho
  · refine h pre o' post' ?_
    rw [concat_eq_append, ← cons_append, ← append_assoc] at heq
    exact (append_inj' heq rfl).1

/-! ## The arithmetic of the slots -/

section Slots

variable {u n : ℕ}

/-- `u` slots are written back at a time: either the 32-bit sizes wrap at whole groups, or there is
only one group. -/
structure GroupOf (packet : List UInt8) (u : ℕ) : Prop where
  pos : 0 < u
  le : u ≤ 1024
  wrap : u ∣ 65536 ∨ transferCount packet ≤ u
  count_lt : transferCount packet < 2 ^ 32
  -- a last transfer of full size must end a full group
  full : packet.length % 65536 = 0 → transferCount packet % u = 0

/-- `GroupOf` without the condition on the last transfer. -/
structure Grouped (packet : List UInt8) (u : ℕ) : Prop where
  pos : 0 < u
  le : u ≤ 1024
  wrap : u ∣ 65536 ∨ transferCount packet ≤ u
  count_lt : transferCount packet < 2 ^ 32

variable {packet : List UInt8}

theorem GroupOf.grouped (hu : GroupOf packet u) : Grouped packet u :=
  ⟨hu.pos, hu.le, hu.wrap, hu.count_lt⟩

section

variable (packet)

theorem transferCount_spec :
    packet.length ≤ transferCount packet * 65536 ∧ transferCount packet * 65536 <
    packet.length + 65536 := by
  rw [transferCount, transferUnitSz]
  omega

theorem length_transferOf (n : ℕ) :
    (transferOf packet n).length = min 65536 (packet.length - n * 65536) := by
  rw [transferOf, transferUnitSz, length_take, length_drop]

/-- What is left of the packet behind a transfer. -/
theorem transferOf_end (n : ℕ) (hn : n < transferCount packet) :
    n * 65536 + (transferOf packet n).length ≤ packet.length ∧
      packet.length - (n * 65536 + (transferOf packet n).length) = packet.length - (n + 1) * 65536 := by
  have hcount := transferCount_spec packet
  rw [length_transferOf]
  omega

/-- All transfers but the last are full ones. -/
theorem length_transferOf_full (n : ℕ) (hn : n + 1 < transferCount packet) :
    (transferOf packet n).length = 65536 ∧ (n + 1) * 65536 < packet.length := by
  have hcount := transferCount_spec packet
  rw [length_transferOf]
  omega

end

/-- Sizes that are whole slots can be reduced modulo a group in 32 bits. -/
theorem mod_group (hu : Grouped packet u) {x : ℕ} (hx : transferCount packet ≤ u → x < 2 ^ 32) :
    x % 2 ^ 32 % (u * 65536) = x % (u * 65536) := by
  rcases hu.wrap with hdvd | hle
  · refine Nat.mod_mod_of_dvd x ?_
    have h := Nat.mul_dvd_mul_right hdvd 65536
    exact h
  · rw [Nat.mod_eq_of_lt (hx hle)]

/-- The first slot of the group of slot `n`. -/
def groupStart (u n : ℕ) : ℕ := n / u * u

theorem groupStart_spec (hu : Grouped packet u) (n : ℕ) : groupStart u n ≤ n ∧
    n < groupStart u n + u := by
  have hdiv := Nat.div_add_mod n u
  have hlt := Nat.mod_lt n hu.pos
  rw [mul_comm] at hdiv
  rw [groupStart]
  omega

/-- A place in the group, and its size, modulo the size of a group. -/
theorem mod_of_groupStart (c : ℕ) {x : ℕ} (hle : groupStart u n * c ≤ x)
    (hlt : x < (groupStart u n + u) * c) : x % (u * c) = x - groupStart u n * c := by
  have hstart : groupStart u n * c = u * c * (n / u) := by
    rw [groupStart, Nat.mul_assoc, Nat.mul_comm]
  obtain ⟨r, rfl⟩ := Nat.exists_eq_add_of_le hle
  rw [Nat.add_mul] at hlt
  rw [Nat.add_sub_cancel_left, hstart, Nat.mul_add_mod, Nat.mod_eq_of_lt (by omega)]

theorem groupStart_next (hle : groupStart u n ≤ n) (hlt : n + 1 < groupStart u n + u) :
    groupStart u (n + 1) = groupStart u n := by
  rw [groupStart] at hle hlt
  have hdiv : (n + 1) / u = n / u := Nat.div_eq_of_lt_le (by omega) (by rw [Nat.succ_mul]; omega)
  rw [groupStart, groupStart, hdiv]

theorem groupStart_full (hu : 0 < u) (heq : n + 1 = groupStart u n + u) :
    groupStart u (n + 1) = n + 1 := by
  have hmul : n + 1 = (n / u + 1) * u := by rw [heq, groupStart, Nat.succ_mul]
  rw [groupStart, hmul, Nat.mul_div_cancel _ hu]

end Slots

/-! ## The counters -/

/-- The counters of the manager before transfer `n`. -/
structure Counting (packet : List UInt8) (u n : ℕ) (m : BufManager) : Prop where
  unit : m.writeBackUnitSz = u * 65536
  total : m.tplcmdTotalSz = packet.length
  slot : m.totalSlotNum = n
  dest : m.destMediaType = .store
  next : m.nextWriteBackSlot = min (groupStart u n + u) (transferCount packet)

section Counters

variable {packet : List UInt8} {u n : ℕ} {m : BufManager}

theorem Counting.bufBase (h : Counting packet u n m) : m.bufBase = transferBuf := by
  rw [BufManager.bufBase, h.dest]

section

variable (h : Counting packet u n m) (hu : Grouped packet u)

include h hu

/-- The transfer goes right behind the ones collected so far. -/
theorem Counting.getBuf (hn : n < transferCount packet) :
    m.getBufForBulkTransfer (transferOf packet n).length = some
    (transferBuf + (n - groupStart u n) * 65536) := by
  have hcount := transferCount_spec packet
  obtain ⟨hle, hlt⟩ := groupStart_spec hu n
  have hmod : n * 65536 % 2 ^ 32 % (u * 65536) = (n - groupStart u n) * 65536 := by
    rw [mod_group hu (fun hle => ?_), mod_of_groupStart (n := n) 65536 (by omega) (by omega), Nat.sub_mul]
    have := hu.le
    omega
  have hlast : ¬ ((transferOf packet n).length < 65536 ∧ m.leftPktSz (n * 65536) ≠
    (transferOf packet n).length) := by
    rintro ⟨hlt, hne⟩
    rw [length_transferOf] at hlt hne
    rw [BufManager.leftPktSz, h.total, if_neg (by omega)] at hne
    omega
  rw [BufManager.getBufForBulkTransfer, h.slot, transferUnitSz, if_neg hlast, h.bufBase, h.unit, hmod]

/-- The size that is written back is that of the transfers collected. -/
theorem Counting.thisWriteBackSz (hlast : packet.length % 65536 = 0 → transferCount packet % u = 0)
    (hn : n < transferCount packet) (hdue : n + 1 = min (groupStart u n + u) (transferCount packet)) :
    m.thisWriteBackSz (transferOf packet n).length
      = ((packet.take ((n + 1) * 65536)).drop (groupStart u n * 65536)).length := by
  have hcount := transferCount_spec packet
  obtain ⟨hle, hlt⟩ := groupStart_spec hu n
  rw [BufManager.thisWriteBackSz, h.slot, h.unit, transferUnitSz, length_transferOf,
    length_drop, length_take]
  split
  · next hfull =>
    -- a full transfer ends a full group
    have hend : n + 1 = groupStart u n + u := by
      by_contra hne
      have hmod := mod_of_groupStart (u := u) (n := n) (x := transferCount packet) 1 (by omega) (by omega)
      rw [mul_one] at hmod
      omega
    omega
  · next hshort =>
    rw [mod_group hu (fun hle' => ?_), mod_of_groupStart (n := n) 65536 (by omega) (by omega)]
    · omega
    · have := hu.le
      omega

/-- The slot of the next call of the consumer. -/
theorem Counting.advance (hn : n + 1 < transferCount packet) (hdue : n + 1 = groupStart u n + u) :
    m.advance (packet.length - (n + 1) * 65536) = min (n + 1 + u) (transferCount packet) := by
  have hcount := transferCount_spec packet
  have hlt := hu.count_lt
  have hle := hu.le
  have hnext : m.nextWriteBackSlot = n + 1 := by
    rw [h.next]
    omega
  rw [BufManager.advance, h.unit, hnext, transferUnitSz, Nat.mul_div_cancel _ (by decide)]
  split
  · next hge =>
    have hcount' : n + 1 + u ≤ transferCount packet := by omega
    rw [Nat.min_eq_left hcount', Nat.mod_eq_of_lt (by omega)]
  · next hshort =>
    have hslots : n + 1 + (packet.length - (n + 1) * 65536 + 65536 - 1) / 65536 =
      transferCount packet := by omega
    have hbound : packet.length - (n + 1) * 65536 < 2 ^ 26 := by omega
    generalize packet.length - (n + 1) * 65536 = left at hslots hbound ⊢
    rw [slotsOf, transferUnitSz, Nat.mod_eq_of_lt (show left < 2 ^ 32 by omega),
      Nat.mod_eq_of_lt (show left + 65536 - 1 < 2 ^ 32 by omega)]
    omega

end

variable {s : Session} {consume : List Offer → List UInt8 → ℕ}

/-- The memory with transfer `n` behind the ones of its group. -/
def Session.received (s : Session) (packet : List UInt8) (u n : ℕ) : ℕ → UInt8 :=
  store s.mem (transferBuf + (n - groupStart u n) * 65536) (transferOf packet n)

/-- The memory with the transfer in it. -/
theorem contains_transfer (hu : Grouped packet u) (hn : n < transferCount packet)
    {tail : List UInt8} (htail : tail.length ≤ transferBuf) (h : Contains s.mem (transferBuf - tail.length)
      (tail ++ (packet.take (n * 65536)).drop (groupStart u n * 65536))) :
    Contains (s.received packet u n) (transferBuf - tail.length)
      (tail ++ (packet.take ((n + 1) * 65536)).drop (groupStart u n * 65536)) := by
  have hcount := transferCount_spec packet
  obtain ⟨hle, -⟩ := groupStart_spec hu n
  have hsplit : (packet.take ((n + 1) * 65536)).drop (groupStart u n * 65536)
      = (packet.take (n * 65536)).drop (groupStart u n * 65536) ++ transferOf packet n := by
    rw [transferOf, transferUnitSz, Nat.add_mul, take_add, drop_append_of_le_length]
    rw [length_take]
    omega
  have hlen : (tail ++ (packet.take (n * 65536)).drop (groupStart u n * 65536)).length
      = tail.length + (n - groupStart u n) * 65536 := by
    rw [length_append, length_drop, length_take]
    omega
  rw [hsplit, ← append_assoc, contains_append, hlen,
    show transferBuf - tail.length + (tail.length + (n - groupStart u n) * 65536)
      = transferBuf + (n - groupStart u n) * 65536 by omega]
  refine ⟨h.congr fun a _ ha => store_of_outside _ _ _ (.inl ?_), contains_store _ _ _⟩
  omega

/-- The session after a transfer has been written back and `left` bytes have been kept. -/
def Session.afterWriteBack (s : Session) (mem : ℕ → UInt8) (left next : ℕ) (o : Offer) :
    Session where
  man := { s.man with
    totalSlotNum := s.man.totalSlotNum + 1
    leftDataSz := left
    nextWriteBackSlot := next }
  mem := mem
  offers := s.offers ++ [o]

/-- A transfer that does not complete a group is collected. -/
theorem Counting.transfer_collect (h : Counting packet u n s.man) (hu : Grouped packet u)
    (hn : n < transferCount packet)
    (hnot : n + 1 ≠ min (groupStart u n + u) (transferCount packet)) :
    s.transfer consume (transferOf packet n)
        = some ⟨{ s.man with totalSlotNum := n + 1 }, s.received packet u n, s.offers⟩ ∧
      groupStart u (n + 1) = groupStart u n := by
  obtain ⟨hle, hlt⟩ := groupStart_spec hu n
  have hcount := hu.count_lt
  have hslot : (n + 1) % 2 ^ 32 = n + 1 := Nat.mod_eq_of_lt (by omega)
  refine ⟨?_, groupStart_next hle (by omega)⟩
  rw [Session.transfer, h.getBuf hu hn]
  simp only [reportTransferComplete, h.slot, hslot, h.next, if_neg hnot]
  rfl

/-- A transfer that completes a group is written back: `size` bytes lie from `front` bytes before
the buffer on, and all but `aside` of them are offered unless the packet is complete. -/
theorem Counting.transfer_due (h : Counting packet u n s.man) (hu : Grouped packet u)
    (hn : n < transferCount packet) (hdue : n + 1 = min (groupStart u n + u) (transferCount packet))
    {front aside size left burn : ℕ} (hfront : s.man.leftDataSz = front)
    (haside : s.man.itemOffsetNotAlignClusterSz = aside)
    (hsize : front + s.man.thisWriteBackSz (transferOf packet n).length = size) (hlt : size < 2 ^ 32)
    (hleft : left = packet.length - (n + 1) * 65536)
    (hmem : mem = s.received packet u n)
    (hdata : data = load mem (transferBuf - front) (size - if left ≠ 0 then aside else 0))
    (hburn : burn = consume s.offers data) :
    s.transfer consume (transferOf packet n) = if burn ≤ front ∨ burn = 0 then none
        else if size - (if left ≠ 0 then aside else 0) < burn then none
        else if size - burn = 0 then
          some (s.afterWriteBack mem (size - burn) (s.man.advance left) ⟨data, burn⟩)
        else if left = 0 then none
        else if leftDataMaxSz < size - burn then none
        else if (size - burn) % 4 ≠ 0 then none
        else some (s.afterWriteBack (store mem (transferBuf - (size - burn))
          (load mem (transferBuf - front + burn) (size - burn))) (size - burn) (s.man.advance left)
          ⟨data, burn⟩) := by
  have hslot : (n + 1) % 2 ^ 32 = n + 1 := Nat.mod_eq_of_lt (Nat.lt_of_le_of_lt hn hu.count_lt)
  obtain ⟨hle, hrest⟩ := transferOf_end packet n hn
  have hleftPkt : s.man.leftPktSz (n * 65536 + (transferOf packet n).length) = left := by
    rw [BufManager.leftPktSz, h.total, if_neg (Nat.not_lt.mpr hle), hleft, hrest]
  have hend : packet.length ≤ n * 65536 + (transferOf packet n).length ↔ left = 0 := by
    rw [hleft, ← hrest, Nat.sub_eq_zero_iff_le]
  rw [Session.received] at hmem
  rw [Session.transfer, h.getBuf hu hn]
  simp only [reportTransferComplete, writeBack, h.slot, hslot, h.next, if_pos hdue,
    ← hmem, haside, hfront, hsize, Nat.mod_eq_of_lt hlt, transferUnitSz, h.total, hleftPkt, hend]
  rw [h.bufBase, ← hdata, ← hburn]
  simp only [Session.afterWriteBack, h.slot, h.total, haside]

end Counters

/-! ## The invariant -/

/-- Before transfer `n`: `tail` is what the consumer has left, and the transfers since the last call
of the consumer lie behind it. -/
structure Receiving (packet : List UInt8) (u n : ℕ) (tail : List UInt8) (s : Session) : Prop where
  unit : s.man.writeBackUnitSz = u * 65536
  total : s.man.tplcmdTotalSz = packet.length
  slot : s.man.totalSlotNum = n
  dest : s.man.destMediaType = .store
  noItemOffset : s.man.itemOffsetNotAlignClusterSz = 0
  next : s.man.nextWriteBackSlot = min (groupStart u n + u) (transferCount packet)
  left : s.man.leftDataSz = tail.length
  tail_le : tail.length ≤ leftDataMaxSz
  lastTail : lastTail s.offers = tail.length
  delivered : deliveredBy s.offers ++ tail = packet.take (groupStart u n * 65536)
  mem : Contains s.mem (transferBuf - tail.length)
    (tail ++ (packet.take (n * 65536)).drop (groupStart u n * 65536))
  offers : OffersOk (packet.take (n * 65536)) s.offers

variable {packet tail : List UInt8} {u n : ℕ} {s : Session} {consume : List Offer → List UInt8 → ℕ}

section

variable (h : Receiving packet u n tail s)

include h

theorem Receiving.counting : Counting packet u n s.man := ⟨h.unit, h.total, h.slot, h.dest, h.next⟩

section

variable (hu : GroupOf packet u)

include hu

theorem Receiving.mem_transfer (hn : n < transferCount packet) :
    Contains (s.received packet u n) (transferBuf - tail.length)
      (tail ++ (packet.take ((n + 1) * 65536)).drop (groupStart u n * 65536)) := by
  have hroom : leftDataMaxSz ≤ transferBuf := by decide
  exact contains_transfer hu.grouped hn (Nat.le_trans h.tail_le hroom) h.mem

/-! ## One transfer -/

/-- A transfer that does not complete a group is collected. -/
theorem Receiving.transfer_collect (hn : n < transferCount packet)
    (hnot : n + 1 ≠ min (groupStart u n + u) (transferCount packet)) :
    ∃ s', s.transfer consume (transferOf packet n) = some s' ∧ Receiving packet u (n + 1) tail s' := by
  obtain ⟨hrun, hstart⟩ := h.counting.transfer_collect hu.grouped hn hnot
  refine ⟨_, hrun, ?_⟩
  refine
    { unit := h.unit, total := h.total, slot := rfl, dest := h.dest, noItemOffset := h.noItemOffset,
      next := hstart ▸ h.next, left := h.left, tail_le := h.tail_le, lastTail := h.lastTail,
      delivered := hstart ▸ h.delivered, mem := ?_, offers := h.offers.mono ?_ }
  · rw [hstart]
    exact h.mem_transfer hu hn
  · exact take_prefix_take_left (by omega)

/-- The session after the consumer has been called. -/
def Session.afterOffer (s : Session) (mem : ℕ → UInt8) (next : ℕ) (o : Offer) : Session where
  man := { s.man with
    totalSlotNum := s.man.totalSlotNum + 1
    leftDataSz := o.data.length - o.burnSz
    nextWriteBackSlot := next }
  mem := mem
  offers := s.offers ++ [o]

variable {burn : ℕ} (hdata : data = tail ++ (packet.take ((n + 1) * 65536)).drop (groupStart u n * 65536))

include hdata

/-- A transfer that completes a group: the consumer is offered its tail and the whole group. -/
theorem Receiving.transfer_due
    (hn : n < transferCount packet) (hdue : n + 1 = min (groupStart u n + u) (transferCount packet))
    (hburn : burn = consume s.offers data) (hmem : mem = s.received packet u n)
    {left : ℕ} (hleft : left = packet.length - (n + 1) * 65536) :
    s.transfer consume (transferOf packet n) = if burn ≤ tail.length ∨ burn = 0 then none
        else if data.length < burn then none
        else if data.length - burn = 0 then
          some (s.afterOffer mem (s.man.advance left) ⟨data, burn⟩)
        else if left = 0 then none
        else if leftDataMaxSz < data.length - burn then none
        else if (data.length - burn) % 4 ≠ 0 then none
        else some (s.afterOffer (store mem (transferBuf - (data.length - burn))
          (data.drop burn)) (s.man.advance left) ⟨data, burn⟩) := by
  have hcontains : Contains mem (transferBuf - tail.length) data := by
    rw [hmem, hdata]
    exact h.mem_transfer hu hn
  have hsize : tail.length + s.man.thisWriteBackSz (transferOf packet n).length = data.length := by
    rw [h.counting.thisWriteBackSz hu.grouped hu.full hn hdue, ← length_append, ← hdata]
  have hlt : data.length < 2 ^ 32 := by
    have htail := h.tail_le
    have hule := Nat.mul_le_mul_right 65536 hu.le
    rw [leftDataMaxSz] at htail
    rw [hdata, length_append, length_drop, length_take]
    omega
  have hoffered : data = load mem (transferBuf - tail.length)
    (data.length - if left ≠ 0 then 0 else 0) := by
    rw [ite_self, Nat.sub_zero, hcontains.load_eq]
  rw [h.counting.transfer_due hu.grouped hn hdue h.left h.noItemOffset hsize hlt hleft
    hmem hoffered hburn, ite_self, Nat.sub_zero]
  by_cases hlt : data.length < burn
  · simp only [if_pos hlt]
  · rw [hcontains.load_drop]
    rfl

/-- What is offered goes on right behind what has been taken. -/
theorem Receiving.delivered_append : deliveredBy s.offers ++ data = packet.take
    ((n + 1) * 65536) := by
  obtain ⟨hle, -⟩ := groupStart_spec hu.grouped n
  have htake : packet.take (groupStart u n * 65536)
      = (packet.take ((n + 1) * 65536)).take (groupStart u n * 65536) := by
    rw [take_take, Nat.min_eq_left (by omega)]
  rw [hdata, ← append_assoc, h.delivered, htake, take_append_drop]

/-- The manager behind the transfer that completes a group, as long as more is to come. -/
theorem Receiving.afterOffer (hn : n + 1 < transferCount packet) (hdue : n + 1 = groupStart u n + u)
    (htail : data.length - burn ≤ leftDataMaxSz)
    (hmem : Contains mem (transferBuf - (data.length - burn)) (data.drop burn)) :
    Receiving packet u (n + 1) (data.drop burn)
      (s.afterOffer mem (s.man.advance (packet.length - (n + 1) * 65536)) ⟨data, burn⟩) := by
  have hstart := groupStart_full hu.pos hdue
  have hdelivered := h.delivered_append hu hdata
  have hdrop : (data.drop burn).length = data.length - burn := length_drop
  refine
    { unit := h.unit, total := h.total, slot := congrArg (· + 1) h.slot, dest := h.dest,
      noItemOffset := h.noItemOffset, next := ?_, left := hdrop.symm, tail_le := hdrop ▸ htail,
      lastTail := ?_, delivered := ?_, mem := ?_, offers := ?_ }
  · rw [hstart]
    exact h.counting.advance hu.grouped hn hdue
  · rw [Session.afterOffer, lastTail_append, hdrop]
  · rw [Session.afterOffer, deliveredBy_append, append_assoc, take_append_drop, hstart, hdelivered]
  · rw [hstart, drop_eq_nil_of_le (length_take_le _ _), append_nil, hdrop]
    exact hmem
  · exact (h.offers.mono (take_prefix_take_left (by omega))).append (hdelivered ▸ prefix_refl _)

/-- A transfer that completes a group, with a consumer that behaves. -/
theorem Receiving.transfer_offer
    (hn : n < transferCount packet) (hdue : n + 1 = min (groupStart u n + u) (transferCount packet))
    (hburn : burn = consume s.offers data) (hle : burn ≤ data.length) (hmore : tail.length < burn)
    (htail : data.length - burn ≤ leftDataMaxSz) (hdvd : (data.length - burn) % 4 = 0)
    (hlast : n + 1 = transferCount packet → burn = data.length) :
    ∃ s', s.transfer consume (transferOf packet n) = some s' ∧
      OffersOk (packet.take ((n + 1) * 65536)) s'.offers ∧
      (n + 1 = transferCount packet → deliveredBy s'.offers = packet) ∧
      (n + 1 < transferCount packet → Receiving packet u (n + 1) (data.drop burn) s') := by
  have hcount := transferCount_spec packet
  have hdelivered := h.delivered_append hu hdata
  have heq := h.transfer_due hu hdata hn hdue hburn rfl rfl
  rw [if_neg (by omega), if_neg (by omega)] at heq
  -- what is left lies in front of the buffer, if there is anything
  obtain ⟨mem', hmem', hrun⟩ : ∃ mem', Contains mem' (transferBuf - (data.length - burn))
      (data.drop burn) ∧ s.transfer consume (transferOf packet n)
        = some (s.afterOffer mem' (s.man.advance (packet.length - (n + 1) * 65536)) ⟨data, burn⟩) := by
    by_cases hzero : data.length - burn = 0
    · rw [if_pos hzero] at heq
      refine ⟨_, ?_, heq⟩
      rw [drop_eq_nil_of_le (by omega)]
      trivial
    · rw [if_neg hzero, if_neg (by omega), if_neg (by omega), if_neg (by omega)] at heq
      exact ⟨_, contains_store _ _ _, heq⟩
  refine ⟨_, hrun, ?_, fun hend => ?_, fun hn' => h.afterOffer hu hdata hn' (by omega) htail hmem'⟩
  · exact (h.offers.mono (take_prefix_take_left (by omega))).append (hdelivered ▸ prefix_refl _)
  · rw [Session.afterOffer, deliveredBy_append, hlast hend, take_length, hdelivered,
      take_of_length_le (by omega)]

end

end

/-! ## Whole downloads -/

/-- All transfers up to any point. -/
theorem runTransfers_spec (hu : GroupOf packet u) (hc : ConsumerOk packet consume)
    (h₀ : Receiving packet u 0 [] s) (hpos : 0 < transferCount packet) (n : ℕ)
    (hn : n ≤ transferCount packet) :
    ∃ s', runTransfers consume s packet n = some s' ∧ OffersOk (packet.take (n * 65536)) s'.offers ∧
      (n = transferCount packet → deliveredBy s'.offers = packet) ∧
      (n < transferCount packet → ∃ tail, Receiving packet u n tail s') := by
  induction n with
  | zero => exact ⟨s, rfl, h₀.offers, fun h => by omega, fun _ => ⟨[], h₀⟩⟩
  | succ n ih =>
    obtain ⟨s', hrun, -, -, hreceiving⟩ := ih (by omega)
    obtain ⟨tail, h⟩ := hreceiving (by omega)
    rw [runTransfers, hrun]
    by_cases hdue : n + 1 = min (groupStart u n + u) (transferCount packet)
    · obtain ⟨data, hdata⟩ : ∃ data, data = tail ++
          (packet.take ((n + 1) * 65536)).drop (groupStart u n * 65536) := ⟨_, rfl⟩
      have hdelivered := h.delivered_append hu hdata
      have hmore : lastTail s'.offers < data.length := by
        have hcount := transferCount_spec packet
        have hstart := (groupStart_spec hu.grouped n).1
        rw [h.lastTail, hdata, length_append, length_drop, length_take]
        omega
      obtain ⟨s'', hstep, hoffers, hend, hnext⟩ := h.transfer_offer hu hdata hn hdue rfl
        (hc.le _ _) (h.lastTail ▸ hc.more _ _ hmore) (hc.tail_le _ _) (hc.tail_dvd _ _) (fun hlast => by
          refine hc.last _ _ ?_
          have hcount := transferCount_spec packet
          rw [hdelivered, take_of_length_le (by omega)])
      exact ⟨s'', hstep, hoffers, hend, fun hlt => ⟨_, hnext hlt⟩⟩
    · obtain ⟨s'', hstep, h'⟩ := h.transfer_collect hu hn hdue
      have hlt := (groupStart_spec hu.grouped n).2
      exact ⟨s'', hstep, h'.offers, fun hend => by omega, fun _ => ⟨tail, h'⟩⟩

/-- The start of a download. -/
theorem receiving_start {m : BufManager} (mem : ℕ → UInt8) (h : Counting packet u 0 m)
    (hitem : m.itemOffsetNotAlignClusterSz = 0) (hleft : m.leftDataSz = 0) :
    Receiving packet u 0 [] ⟨m, mem, []⟩ := by
  have hstart : groupStart u 0 = 0 := by rw [groupStart, Nat.zero_div, Nat.zero_mul]
  refine
    { unit := h.unit, total := h.total, slot := h.slot, dest := h.dest, noItemOffset := hitem,
      next := h.next, left := hleft, tail_le := Nat.zero_le _, lastTail := rfl, delivered := ?_, mem := ?_,
      offers := ?_ }
  · rw [hstart]
    rfl
  · rw [hstart]
    trivial
  · intro pre o post heq
    exact absurd heq (by simp)

/-- How many slots `optimus_buf_manager_tplcmd_init` has written back at a time. -/
def groupSlots (partName : String) (imgType : ImgType) (packet : List UInt8) : ℕ :=
  if partName = "bootloader" then transferCount packet
  else if imgType = .sparse then 1024
  else 1

variable {partName : String} {imgType : ImgType}

theorem writeBackUnitSzOf_eq (imgType : ImgType) (n : ℕ)
    (hboot : partName = "bootloader" → packet.length ≤ 2 ^ 26) : writeBackUnitSzOf .store partName
    imgType packet.length n = (if partName = "bootloader" then transferCount packet
        else if imgType = .sparse ∨ n ≠ 0 then 1024 else 1) * 65536 := by
  rw [writeBackUnitSzOf]
  by_cases hname : partName = "bootloader"
  · have hle := hboot hname
    rw [if_pos (.inr hname), if_pos hname, roundToSlots, transferCount, transferUnitSz,
      Nat.mod_eq_of_lt (by omega)]
  · rw [if_neg (by simp [hname])]
    split <;> rfl

section

variable (hpos : 0 < packet.length) (hmax : packet.length ≤ 65536 * (2 ^ 32 - 1))
  (hboot : partName = "bootloader" → packet.length ≤ 2 ^ 26)

include hpos hmax hboot

theorem groupOf_groupSlots
    (hfull : partName ≠ "bootloader" → imgType = .sparse → packet.length % 65536 = 0 →
    packet.length % 2 ^ 26 = 0) :
    GroupOf packet (groupSlots partName imgType packet) := by
  have hcount := transferCount_spec packet
  rw [groupSlots]
  split
  · next hname =>
    have := hboot hname
    exact ⟨by omega, by omega, .inr (Nat.le_refl _), by omega, fun _ => Nat.mod_self _⟩
  · next hname =>
    split
    · next htype =>
      refine ⟨by decide, by decide, .inl (by decide), by omega, fun h => ?_⟩
      have := hfull hname htype h
      omega
    · exact ⟨by decide, by decide, .inl (by decide), by omega, fun _ => Nat.mod_one _⟩

/-- The initialisation succeeds, for a packet behind `n` bytes that do not go through the slots. -/
theorem tplcmdInit_counting (partBaseOffset n : ℕ)
    (hu : u = if partName = "bootloader" then transferCount packet
      else if imgType = .sparse ∨ n ≠ 0 then 1024 else 1) :
    ∃ m, tplcmdInit .store partName partBaseOffset imgType (packet.length + n) n = some m ∧
      Counting packet u 0 m ∧ m.itemOffsetNotAlignClusterSz = n ∧ m.leftDataSz = n := by
  have hcount := transferCount_spec packet
  have hunit := writeBackUnitSzOf_eq imgType n hboot
  rw [← hu] at hunit
  have hrange : 1 ≤ u ∧ u ≤ 1024 := by
    rw [hu]
    split
    · next hname =>
      have hle := hboot hname
      omega
    · split <;> decide
  have hnext : (if packet.length < u * 65536 then slotsOf packet.length else u * 65536 / 65536)
      = min (groupStart u 0 + u) (transferCount packet) := by
    rw [groupStart, Nat.zero_div]
    split
    · rw [slotsOf, transferUnitSz]
      omega
    · omega
  have hsize : (packet.length + n + 2 ^ 64 - n) % 2 ^ 64 = packet.length := by omega
  simp only [tplcmdInit, hsize, hunit, transferBufSz, transferUnitSz]
  rw [if_neg (fun h => by have := hboot h.1; omega), if_neg (fun h => by cases h.1),
    if_neg (fun h => by omega), if_neg (by omega)]
  exact ⟨_, rfl, ⟨rfl, rfl, rfl, rfl, hnext⟩, rfl, rfl⟩

/-- The initialisation succeeds. -/
theorem tplcmdInit_spec (partBaseOffset : ℕ) (mem : ℕ → UInt8) :
    ∃ m, tplcmdInit .store partName partBaseOffset imgType packet.length 0 = some m ∧
      Receiving packet (groupSlots partName imgType packet) 0 [] ⟨m, mem, []⟩ := by
  have hu : groupSlots partName imgType packet = if partName = "bootloader" then transferCount packet
      else if imgType = .sparse ∨ 0 ≠ 0 then 1024 else 1 := by
    simp [groupSlots]
  obtain ⟨m, hinit, hcounting, hitem, hleft⟩ := tplcmdInit_counting hpos hmax hboot partBaseOffset 0 hu
  exact ⟨m, hinit, receiving_start mem hcounting hitem hleft⟩

end

/-- The packet is offered in order and exactly once: at every point of the download the offers go on
right behind what has been taken and within what has been received, no transfer fails, and in the
end all of the packet has been taken. -/
theorem delivered_in_order (packet : List UInt8) (partName : String) (partBaseOffset : ℕ)
    (imgType : ImgType) (consume : List Offer → List UInt8 → ℕ) (mem : ℕ → UInt8)
    (hpos : 0 < packet.length) (hmax : packet.length ≤ 65536 * (2 ^ 32 - 1))
    (hboot : partName = "bootloader" → packet.length ≤ 2 ^ 26)
    (hfull : partName ≠ "bootloader" → imgType = .sparse → packet.length % 65536 = 0 →
      packet.length % 2 ^ 26 = 0)
    (hc : ConsumerOk packet consume) :
    ∃ m, tplcmdInit .store partName partBaseOffset imgType packet.length 0 = some m ∧
      ∀ n ≤ transferCount packet, ∃ s, runTransfers consume ⟨m, mem, []⟩ packet n = some s ∧
        OffersOk (packet.take (n * transferUnitSz)) s.offers ∧
        (n = transferCount packet → deliveredBy s.offers = packet) := by
  obtain ⟨m, hinit, h₀⟩ := tplcmdInit_spec hpos hmax hboot partBaseOffset mem
  have hcount := transferCount_spec packet
  refine ⟨m, hinit, fun n hn => ?_⟩
  obtain ⟨s, hrun, hoffers, hend, -⟩ :=
    runTransfers_spec (groupOf_groupSlots hpos hmax hboot hfull) hc h₀ (by omega) n hn
  exact ⟨s, hrun, hoffers, hend⟩

/-- A consumer that leaves a word of an offer, unless it left one of the offer before. -/
def leaveWord (packet : List UInt8) (offers : List Offer) (data : List UInt8) : ℕ :=
  if lastTail offers = 0 ∧ 4 < data.length ∧ deliveredBy offers ++ data ≠ packet then data.length - 4
  else data.length

theorem consumerOk_leaveWord (packet : List UInt8) : ConsumerOk packet (leaveWord packet) where
  le offers data := by unfold leaveWord; split <;> omega
  more offers data h := by unfold leaveWord; split <;> omega
  tail_le offers data := by unfold leaveWord leftDataMaxSz; split <;> omega
  tail_dvd offers data := by unfold leaveWord; split <;> omega
  last _ _ h := if_neg fun hc => hc.2.2 h

/-- A packet of two transfers: the word that is left of the first is offered again with the
second. -/
theorem delivered_in_order_leaveWord :
    ∃ m, tplcmdInit .store "system" 0 .normal (replicate 100000 (7 : UInt8)).length 0 = some m ∧
      ∀ n ≤ transferCount (replicate 100000 (7 : UInt8)),
        ∃ s, runTransfers (leaveWord (replicate 100000 7)) ⟨m, fun _ => 0, []⟩ (replicate 100000 7)
            n = some s ∧
          OffersOk ((replicate 100000 7).take (n * transferUnitSz)) s.offers ∧
          (n = transferCount (replicate 100000 (7 : UInt8)) → deliveredBy s.offers =
            replicate 100000 7) := by
  have hlen : (replicate 100000 (7 : UInt8)).length = 100000 := length_replicate
  refine delivered_in_order (replicate 100000 7) "system" 0 .normal _ (fun _ => 0) ?_ ?_ ?_ ?_
    (consumerOk_leaveWord _)
  · rw [hlen]
    decide
  · rw [hlen]
    decide
  · intro h
    exact absurd h (by decide)
  · intro _ h
    cases h

/-! ### A consumer that takes less than it left -/

/-- Take one word, unless that is not allowed. -/
def takeWord (packet : List UInt8) (offers : List Offer) (data : List UInt8) : ℕ :=
  if deliveredBy offers ++ data ≠ packet ∧ data.length % 4 = 0 ∧ data.length ≠ 0 ∧
    data.length ≤ leftDataMaxSz then 4 else data.length

/-- Three full transfers. -/
def threeTransfers : List UInt8 := List.replicate 196608 7

theorem takeWord_eq (hne : (deliveredBy offers ++ data).length ≠ packet.length)
    (hdvd : data.length % 4 = 0) (hpos : data.length ≠ 0) (hle : data.length ≤ leftDataMaxSz) :
    takeWord packet offers data = 4 :=
  if_pos ⟨fun h => hne (congrArg length h), hdvd, hpos, hle⟩

theorem takeWord_allowed (packet : List UInt8) (offers : List Offer) (hne : data ≠ []) :
    0 < takeWord packet offers data ∧ takeWord packet offers data ≤ data.length ∧
      data.length - takeWord packet offers data ≤ leftDataMaxSz ∧
      (data.length - takeWord packet offers data) % 4 = 0 ∧
      (deliveredBy offers ++ data = packet → takeWord packet offers data = data.length) := by
  have hpos := length_pos_iff.mpr hne
  rw [takeWord]
  split
  · next h =>
    obtain ⟨hmid, hdvd, hzero, hle⟩ := h
    exact ⟨by decide, by omega, by omega, by omega, fun heq => absurd heq hmid⟩
  · exact ⟨hpos, Nat.le_refl _, by omega, by omega, fun _ => rfl⟩

/-- A consumer that takes a non-empty part of each offer and leaves at most 2 MiB in whole words
still makes a transfer fail, when it takes no more than it left at the call before. -/
theorem not_delivered_takeWord :
    (∀ offers data, data ≠ [] → 0 < takeWord threeTransfers offers data ∧
      takeWord threeTransfers offers data ≤ data.length ∧
      data.length - takeWord threeTransfers offers data ≤ leftDataMaxSz ∧
      (data.length - takeWord threeTransfers offers data) % 4 = 0 ∧
      (deliveredBy offers ++ data = threeTransfers → takeWord threeTransfers offers data = data.length)) ∧
    ∃ m, tplcmdInit .store "boot" 0 .normal threeTransfers.length 0 = some m ∧
      runTransfers (takeWord threeTransfers) ⟨m, fun _ => 0, []⟩ threeTransfers 2 = none := by
  refine ⟨fun offers data hne => takeWord_allowed _ offers hne, ?_⟩
  have hlen : threeTransfers.length = 196608 := length_replicate
  have hcount : transferCount threeTransfers = 3 := by rw [transferCount, hlen]; rfl
  have hboot : "boot" = "bootloader" → threeTransfers.length ≤ 2 ^ 26 := fun h => absurd h (by decide)
  have hu : GroupOf threeTransfers (groupSlots "boot" .normal threeTransfers) :=
    groupOf_groupSlots (by omega) (by omega) hboot (fun _ h => by cases h)
  obtain ⟨m, hinit, h₀⟩ : ∃ m, tplcmdInit .store "boot" 0 .normal threeTransfers.length 0 = some m ∧
      Receiving threeTransfers (groupSlots "boot" .normal threeTransfers) 0 [] ⟨m, fun _ => 0, []⟩ :=
    tplcmdInit_spec (by omega) (by omega) hboot 0 _
  refine ⟨m, hinit, ?_⟩
  -- the first call takes one word of a slot
  obtain ⟨data, hdata⟩ : ∃ data, data = [] ++
    (threeTransfers.take ((0 + 1) * 65536)).drop (groupStart 1 0 * 65536) := ⟨_, rfl⟩
  have hsize : data.length = 65536 := by
    rw [hdata, nil_append, length_drop, length_take, hlen]
    rfl
  have hword : takeWord threeTransfers [] data = 4 := by
    refine takeWord_eq ?_ (by omega) (by omega) (by rw [hsize]; decide)
    rw [h₀.delivered_append hu hdata, length_take]
    omega
  obtain ⟨s, hfirst, -, -, hnext⟩ := h₀.transfer_offer hu hdata (by omega) (by rw [hcount]; rfl)
    hword.symm (by omega) (by decide) (by rw [hsize]; decide) (by omega) (by omega)
  have h₁ := hnext (by omega)
  -- the second call takes one word again, of what the first has left
  obtain ⟨data', hdata'⟩ : ∃ data', data' = data.drop 4 ++
    (threeTransfers.take ((0 + 1 + 1) * 65536)).drop (groupStart 1 (0 + 1) * 65536) := ⟨_, rfl⟩
  have hsize' : data'.length = 131068 := by
    rw [hdata', length_append, length_drop, length_drop, length_take, hlen, hsize]
    rfl
  have hword' : takeWord threeTransfers s.offers data' = 4 := by
    refine takeWord_eq ?_ (by omega) (by omega) (by rw [hsize']; decide)
    rw [h₁.delivered_append hu hdata', length_take]
    omega
  have hsecond := h₁.transfer_due hu hdata' (by omega) (by rw [hcount]; rfl) hword'.symm rfl rfl
  rw [if_pos (.inl (by rw [length_drop]; omega))] at hsecond
  have hrun : runTransfers (takeWord threeTransfers) ⟨m, fun _ => 0, []⟩ threeTransfers
    1 = some s := hfirst
  rw [runTransfers, hrun]
  exact hsecond

end UBoot.Burning
