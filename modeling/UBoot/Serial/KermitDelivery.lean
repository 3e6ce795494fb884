import UBoot.Serial.KermitPacket

/-!
# Delivery over a line

On a safe line every download that ends delivers the file. The checkpoint of the receiver is in
front of the packet that is being sent or in front of the one before it, and the first header that
arrives decides which.
-/

namespace UBoot.Serial

open UBoot.Common List

/-! ### The text of a download -/

section Sent

variable {d : Download} {i : ℕ} {p : Packet}

/-- The text that the first packets carry. -/
def Download.sent (d : Download) (i : ℕ) : List UInt8 := (d.packets.take i).flatMap Packet.carries

theorem Download.length_packets (d : Download) : d.packets.length = d.data.length + 4 := by
  simp [Download.packets]

variable (hp : d.packets[i]? = some p)
include hp

theorem Download.sent_succ : d.sent (i + 1) = d.sent i ++ p.carries := by
  rw [Download.sent, take_add_one, hp, flatMap_append]
  exact congrArg _ (flatMap_singleton ..)

theorem Download.legal_of_packets : p.Legal := d.legal p (mem_of_getElem? hp)

/-- The places of the packets. -/
theorem Download.packets_cases :
    (i = 0 ∧ p = d.send) ∨ (i = 1 ∧ p = d.header) ∨ (∃ j, i = j + 2 ∧ d.data[j]? = some p) ∨
      (i = d.data.length + 2 ∧ p = d.eof) ∨ (i = d.data.length + 3 ∧ p = d.brk) := by
  rw [Download.packets] at hp
  match i with
  | 0 => exact .inl ⟨rfl, (Option.some.inj hp).symm⟩
  | 1 => exact .inr (.inl ⟨rfl, (Option.some.inj hp).symm⟩)
  | j + 2 =>
    rw [getElem?_cons_succ, getElem?_cons_succ] at hp
    rcases Nat.lt_or_ge j d.data.length with hlt | hge
    · rw [getElem?_append_left hlt] at hp
      exact .inr (.inr (.inl ⟨j, rfl, hp⟩))
    rw [getElem?_append_right hge] at hp
    obtain ⟨m, rfl⟩ := Nat.exists_eq_add_of_le hge
    rw [Nat.add_sub_cancel_left] at hp
    match m with
    | 0 => exact .inr (.inr (.inr (.inl ⟨rfl, (Option.some.inj hp).symm⟩)))
    | 1 => exact .inr (.inr (.inr (.inr ⟨rfl, (Option.some.inj hp).symm⟩)))
    | m + 2 => cases hp

theorem Download.type_of_packets :
    (p.type = sendType ↔ i = 0) ∧ (p.type = dataType → 2 ≤ i) ∧
    (p.type = breakType ↔ i = d.data.length + 3) := by
  rcases d.packets_cases hp with ⟨rfl, rfl⟩ | ⟨rfl, rfl⟩ | ⟨j, rfl, hj⟩ | ⟨rfl, rfl⟩ | ⟨rfl, rfl⟩
  · rw [d.send_type]
    exact ⟨by simp, by decide, by simp [sendType, breakType]⟩
  · rw [d.header_type]
    exact ⟨by simp [sendType], by decide, by simp [breakType]⟩
  · rw [d.data_type p (mem_of_getElem? hj)]
    have hlt := (List.getElem?_eq_some_iff.mp hj).1
    exact ⟨by simp [sendType, dataType], by omega, by simp [dataType, breakType]; omega⟩
  · rw [d.eof_type]
    exact ⟨by simp [sendType], by omega, by simp [breakType]⟩
  · rw [d.brk_type]
    exact ⟨by simp [sendType, breakType], by omega, by simp⟩

omit hp

theorem Download.map_carries (d : Download) :
    d.packets.map Packet.carries = [] :: [] :: (d.data.map Packet.data ++ [[], []]) := by
  have hnone : ∀ p : Packet, p.type ≠ dataType → p.carries = [] :=
    fun p hp => by rw [Packet.carries, if_neg hp]
  have hdata : d.data.map Packet.carries = d.data.map Packet.data := map_congr_left fun p hp => by
    rw [Packet.carries, if_pos (d.data_type p hp)]
  rw [Download.packets, map_cons, map_cons, map_append, hdata, map_cons, map_singleton,
    hnone d.send (by rw [d.send_type]; decide), hnone d.header (by rw [d.header_type]; decide),
    hnone d.eof (by rw [d.eof_type]; decide), hnone d.brk (by rw [d.brk_type]; decide)]

theorem Download.sent_data {j : ℕ} (hj : j ≤ d.data.length) :
    d.sent (j + 2) = (d.data.take j).flatMap Packet.data := by
  rw [Download.sent, flatMap_def, map_take, d.map_carries, take_succ_cons, take_succ_cons,
    take_append_of_le_length (by rw [length_map]; exact hj), ← map_take]
  rfl

/-- In front of the break, all of the file was sent. -/
theorem Download.sent_break : d.sent (d.data.length + 3) = d.data.flatMap Packet.data := by
  rw [Download.sent, flatMap_def, map_take, d.map_carries, take_succ_cons,
    take_succ_cons, take_append, length_map, take_of_length_le (by rw [length_map]; omega)]
  simp [flatMap_def]

end Sent

/-! ### Quoting -/

section Quoting

variable {q : UInt8}

theorem ktrans_xor {b : UInt8} (h : IsCtl b) : ktrans (b ^^^ 0x40) = b := by
  obtain ⟨n, rfl⟩ := exists_ofFin b
  revert n
  decide +kernel

/-- A quoted text is decoded as the file. -/
theorem decode_of_quotes {file text : List UInt8} (h : Quotes q file text) :
    decode q false text = (file, false) := by
  induction h with
  | nil => rfl
  | plain hb hq _ ih => rw [decode, if_neg hq, ih]
  | control hb _ ih => rw [decode, if_pos rfl, decode, ih, ktrans_xor hb]
  | literal hb hl _ ih =>
    rw [decode, if_pos rfl, decode, ih, ktrans, if_neg hl.1, if_neg hl.2]

end Quoting

/-! ### Runs over a safe line -/

section Runs

variable {line : Line} {start : ℕ} {d : Download} {i : ℕ} {k : KRecv} {p : Packet} {t : List UInt8}

/-- If `k_recv` has returned, the file was delivered. -/
def Delivered (start : ℕ) (d : Download) (k : KRecv) : Prop :=
  ∀ size, k.returned = some size → size = d.file.length ∧ load k.mem start size = d.file

/-- The receiver while packet `i` is being sent. `texts` are the damaged copies that arrived since
it last waited for a start. -/
structure Receiving (line : Line) (start : ℕ) (d : Download) (i : ℕ) (p : Packet)
    (texts : List (List UInt8)) (k : KRecv) : Prop where
  damaged : ∀ t ∈ texts, line.damages (p.text (i % 64)) t
  framed : frame .start texts.flatten = .waits k.phase
  quote : 0 < i → k.his.quote = d.quote
  state : Settled d.quote start (d.sent i) k ∨
    ∃ j, (j = i ∨ i = j + 1) ∧ Ahead d.quote start (d.sent j) (d.sent (j + 1)) (j % 64) k ∧
      firstHeader .start texts.flatten = none

variable {texts : List (List UInt8)}

theorem Receiving.live (h : Receiving line start d i p texts k) : k.returned = none := by
  rcases h.state with hs | ⟨j, -, hs, -⟩ <;> exact hs.live

/-- What holds of sender and receiver in every run. -/
def Sound (line : Line) (start : ℕ) (d : Download) (sys : System) : Prop :=
  (sys.k.returned ≠ none ∧ Delivered start d sys.k) ∨
    ∃ p texts, d.packets[sys.i]? = some p ∧ Receiving line start d sys.i p texts sys.k

/-- A header that is not harmful settles the receiver where the sender is. -/
theorem settled_of_header {j : ℕ} {r : Header} (hp : d.packets[i]? = some p)
    (hj : j = i ∨ i = j + 1)
    (hkeeps : ∀ p', 0 < i → d.packets[i - 1]? = some p' → p'.carries ≠ [] → r ≠ .early ∧
      r ≠ .number ((i - 1) % 64))
    (honce : p.carries ≠ [] → ∀ m, r = .number m → m = i % 64)
    (h : AfterHeader d.quote start (d.sent j) (d.sent (j + 1)) (j % 64) (some r) k) :
    Settled d.quote start (d.sent i) k := by
  rcases hj with rfl | rfl
  · -- the acknowledgement was lost, and the packet is sent again
    cases r with
    | early => exact h
    | number m =>
      rw [AfterHeader] at h
      split at h
      · exact h
      rename_i hm
      have hnone : p.carries = [] := by
        by_contra hne
        exact hm (honce hne m rfl)
      rwa [Download.sent_succ hp, hnone, append_nil] at h
  · have hlt : j < d.packets.length := by
      have := (List.getElem?_eq_some_iff.mp hp).1
      omega
    have hp' := List.getElem?_eq_getElem hlt
    have hnone : r = .early ∨ r = .number (j % 64) → d.sent (j + 1) = d.sent j := by
      intro hr
      have hcarries : d.packets[j].carries = [] := by
        by_contra hne
        obtain ⟨hearly, hnumber⟩ := hkeeps _ (Nat.succ_pos j) hp' hne
        rcases hr with hr | hr
        · exact hearly hr
        · exact hnumber hr
      rw [Download.sent_succ hp', hcarries, append_nil]
    cases r with
    | early =>
      rw [hnone (.inl rfl)]
      exact h
    | number m =>
      rw [AfterHeader] at h
      split at h
      · rename_i hm
        rw [hnone (.inr (by rw [hm]))]
        exact h
      · exact h

/-- The quote is that of the sender once its first packet was taken. -/
theorem Ready.quote_eq {text : List UInt8} (h : Ready d.quote start text (i % 64) k)
    (hp : d.packets[i]? = some p) (hquote : 0 < i → k.his.quote = d.quote) :
    (k.recv start (p.text (i % 64))).his.quote = d.quote := by
  obtain ⟨hsend, -, -⟩ := Download.type_of_packets hp
  rw [h.take_quote (Nat.mod_lt _ (by decide)) (Download.legal_of_packets hp)]
  split
  · rename_i hs
    rw [hsend.mp hs] at hp
    have hpsend : d.send = p := Option.some.inj hp
    rw [d.quote_eq, hpsend]
  · rename_i hs
    exact hquote (by have := mt hsend.mpr hs; omega)

theorem beforeSeq_start : Phase.start.BeforeSeq := trivial

section Copies

variable (h : Receiving line start d i p texts k) (hp : d.packets[i]? = some p)
include h hp

/-- Characters without a good packet, from copies of the packet that is being sent. -/
theorem Receiving.skip {copies rest : List (List UInt8)} {ph : Phase}
    (hsafe : SafeCopies d i p copies)
    (hsame : firstHeader .start texts.flatten = none → ∀ r, firstHeader k.phase t = some r →
      firstHeader .start (copies.flatten ++ p.text (i % 64)) = some r)
    (hframe : frame k.phase t = .waits ph) (hrest : frame .start rest.flatten = .waits ph)
    (hdamaged : ∀ t ∈ rest, line.damages (p.text (i % 64)) t)
    (hnone : firstHeader .start texts.flatten = none → firstHeader k.phase t = none →
      firstHeader .start rest.flatten = none) :
    Receiving line start d i p rest (k.recv start t) := by
  have hhis : (k.recv start t).his = k.his := (KRecv.recv_quiet h.live (by rw [hframe]; simp)).1.1
  have hquote : 0 < i → (k.recv start t).his.quote = d.quote := by
    rw [hhis]
    exact h.quote
  rcases h.state with hs | ⟨j, hj, hs, hbefore⟩
  · obtain ⟨hrecv, hphase⟩ := hs.recv hframe
    exact ⟨hdamaged, hphase ▸ hrest, hquote, .inl hrecv⟩
  obtain ⟨hrecv, hphase⟩ := hs.recv hframe
  refine ⟨hdamaged, hphase ▸ hrest, hquote, ?_⟩
  rcases hh : firstHeader k.phase t with _ | r
  · rw [hh] at hrecv
    exact .inr ⟨j, hj, hrecv, hnone hbefore hh⟩
  rw [hh] at hrecv
  have hfirst := hsame hbefore r hh
  refine .inl (settled_of_header hp hj (fun p' hi hp' hne => ?_) (fun hne m hm => ?_) hrecv)
  · obtain ⟨hearly, hnumber⟩ := hsafe.keeps p' hi hp' hne
    rw [hfirst] at hearly hnumber
    exact ⟨fun heq => hearly (by rw [heq]), fun heq => hnumber (by rw [heq])⟩
  · exact hsafe.once hne m (by rw [hfirst, hm])

/-- A damaged copy. -/
theorem Receiving.damagedCopy (hline : line.Safe) (ht : line.damages (p.text (i % 64)) t) :
    Sound line start d ⟨i, k.recv start t⟩ ∧ ∀ r ∈ k.replies start t, r.type = nackType := by
  have hdamaged : ∀ t' ∈ texts ++ [t], line.damages (p.text (i % 64)) t' :=
    forall_mem_append.mpr ⟨h.damaged, forall_mem_singleton.mpr ht⟩
  have hsafe := hline d i p (texts ++ [t]) hp hdamaged
  have hframe : frame .start (texts ++ [t]).flatten = frame k.phase t := by
    rw [flatten_concat, frame_append h.framed]
  have hcaught : frame k.phase t ≠ .packet := hframe ▸ line.caught hdamaged
  refine ⟨?_, (KRecv.recv_quiet h.live hcaught).2⟩
  cases hf : frame k.phase t with
  | packet => exact absurd hf hcaught
  | aborted =>
    have hfile : d.file = [] := by
      by_contra hne
      exact hsafe.goesOn hne (hframe.trans hf)
    have hreturned : (k.recv start t).returned = some 0 := (KRecv.recv_quiet h.live hcaught).1.2 hf
    refine .inl ⟨by simp [hreturned], fun size hsize => ?_⟩
    have hzero : size = 0 := Option.some.inj (hsize.symm.trans hreturned)
    rw [hfile, hzero]
    exact ⟨rfl, rfl⟩
  | waits ph =>
    have hbefore : firstHeader .start texts.flatten = none → ∀ cs,
        firstHeader .start (texts.flatten ++ cs) = firstHeader k.phase cs :=
      fun hnone cs => (firstHeader_append beforeSeq_start h.framed hnone cs).2
    refine .inr ⟨p, texts ++ [t], hp, h.skip hp hsafe ?_ hf (hframe.trans hf) hdamaged ?_⟩
    · intro hnone r hr
      rw [flatten_concat, append_assoc, hbefore hnone]
      exact firstHeader_append_of_some hr _
    · intro hnone hk
      rw [flatten_concat, hbefore hnone]
      exact hk

/-- An undamaged copy for a receiver that waits for something else than a start. -/
theorem Receiving.lateCopy (hline : line.Safe) (hk : k.phase ≠ .start) :
    Sound line start d ⟨i, k.recv start (p.text (i % 64))⟩ ∧
      ∀ r ∈ k.replies start (p.text (i % 64)), r.type = nackType := by
  have hmod : i % 64 < 64 := Nat.mod_lt _ (by decide)
  have hframe := frame_text hk hmod (Download.legal_of_packets hp)
  refine ⟨.inr ⟨p, [], hp, h.skip hp (hline d i p texts hp h.damaged) ?_ hframe rfl
    (by simp) fun _ _ => rfl⟩,
    (KRecv.recv_quiet h.live (by rw [hframe]; simp)).2⟩
  intro hnone r hr
  rw [(firstHeader_append beforeSeq_start h.framed hnone _).2]
  exact hr

/-- An undamaged copy for a receiver that waits for a start. -/
theorem Receiving.goodCopy (hk : k.phase = .start) :
    Sound line start d ⟨i, k.recv start (p.text (i % 64))⟩ ∧
      Sound line start d ⟨i + 1, k.recv start (p.text (i % 64))⟩ := by
  have hmod : i % 64 < 64 := Nat.mod_lt _ (by decide)
  have hlegal := Download.legal_of_packets hp
  obtain ⟨-, hdata, hbreak⟩ := Download.type_of_packets hp
  have hready : Ready d.quote start (d.sent i) (i % 64) k := by
    rcases h.state with hs | ⟨j, rfl | rfl, hs, -⟩
    · exact hs.ready hk _
    · refine ⟨hk, hs.live, hs.parms, ?_⟩
      rw [KRecv.checkpoint, if_pos hs.last]
      exact hs.saved
    · exact hs.ready_next hk (by omega)
  by_cases htype : p.type = breakType
  · obtain rfl := hbreak.mp htype
    obtain ⟨hreturned, hload⟩ := hready.finish hmod hlegal htype
    rw [Download.sent_break, decode_of_quotes d.quotes] at hreturned hload
    have hdelivered : Delivered start d (k.recv start (p.text ((d.data.length + 3) % 64))) := by
      intro size hsize
      rw [Option.some.inj (hsize.symm.trans hreturned)]
      exact ⟨rfl, hload⟩
    have hreturn := Option.ne_none_iff_exists'.mpr ⟨_, hreturned⟩
    exact ⟨.inl ⟨hreturn, hdelivered⟩, .inl ⟨hreturn, hdelivered⟩⟩
  · obtain ⟨hahead, hphase, -⟩ := hready.take hmod hlegal
        (fun hd => h.quote (by have := hdata hd; omega)) htype
    have hquote := hready.quote_eq hp h.quote
    rw [← Download.sent_succ hp] at hahead
    have hlt : i + 1 < d.packets.length := by
      have hlen := d.length_packets
      have hi := (List.getElem?_eq_some_iff.mp hp).1
      have hne := mt hbreak.mpr htype
      omega
    exact ⟨.inr ⟨p, [], hp, by simp, hphase ▸ rfl, fun _ => hquote, .inr ⟨i, .inl rfl, hahead, rfl⟩⟩,
      .inr ⟨_, [], List.getElem?_eq_getElem hlt, by simp, hphase ▸ rfl, fun _ => hquote,
        .inr ⟨i, .inr rfl, hahead, rfl⟩⟩⟩

end Copies

theorem Sound.round {sys sys' : System} (hline : line.Safe) (h : Sound line start d sys)
    (hround : Round line start d sys sys') : Sound line start d sys' := by
  have hack : ∀ r : Reply, r.type = nackType → r.type ≠ ackType := fun r hr => by rw [hr]; decide
  cases hround with
  | @again i k p t hp ht =>
    rcases h with ⟨hreturned, hgood⟩ | ⟨p', texts, hp', hrecv⟩
    · rw [(KRecv.recv_of_returned hreturned _).1]
      exact .inl ⟨hreturned, hgood⟩
    obtain rfl := Option.some.inj (hp'.symm.trans hp)
    rcases ht with rfl | ht
    · by_cases hk : k.phase = .start
      · exact (hrecv.goodCopy hp hk).1
      · exact (hrecv.lateCopy hp hline hk).1
    · exact (hrecv.damagedCopy hp hline ht).1
  | @next i k p t r hp ht hr htype hn =>
    rcases h with ⟨hreturned, hgood⟩ | ⟨p', texts, hp', hrecv⟩
    · rw [(KRecv.recv_of_returned hreturned _).2] at hr
      cases hr
    obtain rfl := Option.some.inj (hp'.symm.trans hp)
    rcases ht with rfl | ht
    · by_cases hk : k.phase = .start
      · exact (hrecv.goodCopy hp hk).2
      · exact absurd htype (hack _ ((hrecv.lateCopy hp hline hk).2 _ hr))
    · exact absurd htype (hack _ ((hrecv.damagedCopy hp hline ht).2 _ hr))

/-- On a safe line every download delivers the file. -/
theorem delivers_of_safe (hline : line.Safe) (mem : ℕ → UInt8) : Delivers line start mem d := by
  intro sys hrun size hsize
  have hsound : Sound line start d sys := by
    clear hsize
    induction hrun with
    | refl =>
      have hat : At d.quote start [] ⟨false, start⟩ mem := ⟨rfl, rfl, trivial⟩
      exact .inr ⟨d.send, [], rfl, by simp, rfl, fun h => absurd h (by simp),
        .inl ⟨hat, Nat.le_refl _, fun _ => ⟨rfl, rfl⟩, rfl⟩⟩
    | tail _ hround ih => exact ih.round hline hround
  rcases hsound with ⟨-, hgood⟩ | ⟨p, texts, -, hrecv⟩
  · exact hgood size hsize
  · rw [hrecv.live] at hsize
    cases hsize

end Runs

end UBoot.Serial
