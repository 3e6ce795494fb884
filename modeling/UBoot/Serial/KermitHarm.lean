import UBoot.Serial.KermitDelivery

/-!
# Lines that are not safe

A harmful header makes the receiver give up data of a packet that was acknowledged, or take data
twice. For each of them there is a file that is not delivered.
-/

namespace UBoot.Serial

open UBoot.Common Relation List

variable {m j : ℕ} {text : List UInt8}

/-! ### Going on without damage -/

section Completing

variable {line : Line} {start : ℕ} {d : Download} {i : ℕ} {k : KRecv} {p : Packet} {text : List UInt8}

/-- The text that the packets from `i` on carry. -/
def Download.rest (d : Download) (i : ℕ) : List UInt8 := (d.packets.drop i).flatMap Packet.carries

theorem Download.rest_eq (hp : d.packets[i]? = some p) :
    d.rest i = p.carries ++ d.rest (i + 1) := by
  obtain ⟨hi, rfl⟩ := List.getElem?_eq_some_iff.mp hp
  rw [Download.rest, drop_eq_getElem_cons hi]
  rfl

theorem Download.exists_packet (hi : i ≤ d.data.length + 3) :
    ∃ p, d.packets[i]? = some p ∧ (p.type = breakType ↔ i = d.data.length + 3) := by
  have hp := getElem?_eq_getElem (by rw [d.length_packets]; omega : i < d.packets.length)
  exact ⟨_, hp, (Download.type_of_packets hp).2.2⟩

theorem Download.le_of_packets (hp : d.packets[i]? = some p) : i ≤ d.data.length + 3 := by
  have hlt := (List.getElem?_eq_some_iff.mp hp).1
  rw [d.length_packets] at hlt
  omega

/-- The packet is sent without damage and acknowledged. -/
theorem exists_round_next (line : Line) (hp : d.packets[i]? = some p)
    (h : Ready d.quote start text (i % 64) k) (hquote : 0 < i → k.his.quote = d.quote)
    (htype : p.type ≠ breakType) :
    Round line start d ⟨i, k⟩ ⟨i + 1, k.recv start (p.text (i % 64))⟩ ∧
      Ahead d.quote start text (text ++ p.carries) (i % 64) (k.recv start (p.text (i % 64))) ∧
      (k.recv start (p.text (i % 64))).phase = .start ∧
      (k.recv start (p.text (i % 64))).his.quote = d.quote := by
  have hmod : i % 64 < 64 := Nat.mod_lt _ (by decide)
  have hlegal := Download.legal_of_packets hp
  obtain ⟨-, hdata, -⟩ := Download.type_of_packets hp
  obtain ⟨hahead, hphase, r, hr, hack, hn⟩ :=
      h.take hmod hlegal (fun hd => hquote (by have := hdata hd; omega)) htype
  exact ⟨.next hp (.inl rfl) hr hack hn, hahead, hphase, h.quote_eq hp hquote⟩

/-- What `k_recv` returns in the end. -/
def ReturnsText (line : Line) (start : ℕ) (d : Download) (sys : System) (text : List UInt8) :
    Prop :=
  ∃ sys', ReflTransGen (Round line start d) sys sys' ∧
    sys'.k.returned = some (decode d.quote false text).1.length ∧
    load sys'.k.mem start (decode d.quote false text).1.length = (decode d.quote false text).1

variable (line)

/-- Without further damage, the rest of the packets is received behind the text that is there. -/
theorem Ready.returnsText (hm : i + m = d.data.length + 3) (h : Ready d.quote start text (i % 64) k)
    (hquote : 0 < i → k.his.quote = d.quote) : ReturnsText line start d ⟨i, k⟩ (text ++ d.rest i) := by
  induction m generalizing i k text with
  | zero =>
    obtain ⟨p, hp, hbreak⟩ := Download.exists_packet (i := i) (Nat.le_of_eq hm)
    have htype := hbreak.mpr hm
    have hrest : d.rest i = [] := by
      rw [Download.rest_eq hp, Packet.carries, if_neg (by rw [htype]; decide), Download.rest,
        drop_of_length_le (by rw [d.length_packets]; omega)]
      rfl
    rw [hrest, append_nil]
    exact ⟨_, .single (.again hp (.inl rfl)), h.finish (Nat.mod_lt _ (by decide))
      (Download.legal_of_packets hp) htype⟩
  | succ m ih =>
    obtain ⟨p, hp, hbreak⟩ := Download.exists_packet (show i ≤ d.data.length + 3 by omega)
    obtain ⟨hround, hahead, hphase, hquote'⟩ := exists_round_next line hp h hquote
        (by rw [Ne, hbreak]; omega)
    obtain ⟨sys, hrun, hreturned⟩ := ih (by omega)
        (hahead.ready_next (m := (i + 1) % 64) hphase (by omega))
      fun _ => hquote'
    rw [Download.rest_eq hp, ← append_assoc]
    exact ⟨sys, .head hround hrun, hreturned⟩

/-- A settled receiver is ready after one more copy at most. -/
theorem Settled.returnsText (h : Settled d.quote start text k) (hi : i ≤ d.data.length + 3)
    (hquote : 0 < i → k.his.quote = d.quote) : ReturnsText line start d ⟨i, k⟩ (text ++ d.rest i) := by
  obtain ⟨m, hm⟩ := Nat.exists_eq_add_of_le hi
  by_cases hk : k.phase = .start
  · exact (h.ready hk _).returnsText line hm.symm hquote
  obtain ⟨p, hp, -⟩ := Download.exists_packet hi
  have hframe := frame_text hk (Nat.mod_lt i (by decide : 64 > 0)) (Download.legal_of_packets hp)
  obtain ⟨hrecv, hphase⟩ := h.recv hframe
  have hhis : (k.recv start (p.text (i % 64))).his = k.his :=
    (KRecv.recv_quiet h.live (by rw [hframe]; simp)).1.1
  obtain ⟨sys, hrun, hreturned⟩ := (hrecv.ready hphase (i % 64)).returnsText line hm.symm
      (by rw [hhis]; exact hquote)
  exact ⟨sys, .head (.again hp (.inl rfl)) hrun, hreturned⟩

/-- Without damage, the next packet is received. -/
theorem Ready.exists_ahead (hi : i < d.data.length + 3)
    (h : Ready d.quote start (d.sent i) (i % 64) k) (hquote : 0 < i → k.his.quote = d.quote) :
    ∃ k', Round line start d ⟨i, k⟩ ⟨i + 1, k'⟩ ∧ Ahead d.quote start (d.sent i)
      (d.sent (i + 1)) (i % 64) k' ∧ k'.phase = .start ∧ k'.his.quote = d.quote := by
  obtain ⟨p, hp, hbreak⟩ := Download.exists_packet (Nat.le_of_lt hi)
  have hnext := exists_round_next line hp h hquote (by rw [Ne, hbreak]; omega)
  rw [← Download.sent_succ hp] at hnext
  exact ⟨_, hnext⟩

/-- Without damage, the sender gets to every packet, with a receiver that waits for a start. -/
theorem exists_waiting (start : ℕ) (hi : i ≤ d.data.length + 3) (mem : ℕ → UInt8) :
    ∃ k, ReflTransGen (Round line start d) ⟨0, .init mem start⟩ ⟨i, k⟩ ∧
      Ready d.quote start (d.sent i) (i % 64) k ∧ (0 < i → k.his.quote = d.quote) := by
  induction i with
  | zero =>
    have hsettled : Settled d.quote start (d.sent 0) (.init mem start) :=
      ⟨⟨rfl, rfl, trivial⟩, Nat.le_refl _, fun _ => ⟨rfl, rfl⟩, rfl⟩
    exact ⟨_, .refl, hsettled.ready rfl _, by simp⟩
  | succ i ih =>
    obtain ⟨k, hrun, hready, hquote⟩ := ih (by omega)
    obtain ⟨k', hround, hahead, hphase, hquote'⟩ := hready.exists_ahead line hi hquote
    exact ⟨k', hrun.tail hround, hahead.ready_next hphase (by omega), fun _ => hquote'⟩

end Completing

/-! ### Harmful copies -/

section Harm

variable {line : Line} {start : ℕ} {d : Download} {i : ℕ} {k : KRecv} {p : Packet}
    {texts : List (List UInt8)}

theorem KRecv.recv_append (s : KRecv) (v w : List UInt8) :
    s.recv start (v ++ w) = (s.recv start v).recv start w := by
  induction v generalizing s with
  | nil => rfl
  | cons c v ih => exact ih _

/-- Damaged copies, one after the other. -/
theorem run_texts (hp : d.packets[i]? = some p)
    (htexts : ∀ t ∈ texts, line.damages (p.text (i % 64)) t) :
    ReflTransGen (Round line start d) ⟨i, k⟩ ⟨i, k.recv start texts.flatten⟩ := by
  induction texts generalizing k with
  | nil => exact .refl
  | cons t texts ih =>
    rw [flatten_cons, KRecv.recv_append]
    exact .head (.again hp (.inr (htexts t mem_cons_self))) (ih (forall_mem_cons.mp htexts).2)

variable {mem : ℕ → UInt8}

/-- What is returned in the end is the file. -/
theorem file_eq_of_returnsText {sys : System} (hdelivers : Delivers line start mem d)
    (hrun : ReflTransGen (Round line start d) ⟨0, .init mem start⟩ sys)
    (h : ReturnsText line start d sys text) : d.file = (decode d.quote false text).1 := by
  obtain ⟨sys', hrun', hreturned, hload⟩ := h
  obtain ⟨-, hfile⟩ := hdelivers sys' (hrun.trans hrun') _ hreturned
  rw [← hfile, hload]

/-- The header of the copies makes the receiver settle. -/
theorem Ahead.exists_settled {text' : List UInt8} {n : ℕ} {r : Header}
    (h : Ahead d.quote start text text' n k) (hk : k.phase = .start) (hquote : k.his.quote = d.quote)
    (hp : d.packets[i]? = some p) (htexts : ∀ t ∈ texts, line.damages (p.text (i % 64)) t)
    (habort : frame .start texts.flatten ≠ .aborted) (hr : r ≠ .number (i % 64))
    (hheader : firstHeader .start (texts.flatten ++ p.text (i % 64)) = some r) :
    ∃ k', ReflTransGen (Round line start d) ⟨i, k⟩ ⟨i, k'⟩ ∧ AfterHeader d.quote start text
      text' n (some r) k' ∧ k'.his.quote = d.quote := by
  have hmod : i % 64 < 64 := Nat.mod_lt _ (by decide)
  have hlegal := Download.legal_of_packets hp
  have hrun : ReflTransGen (Round line start d) ⟨i, k⟩ ⟨i, k.recv start texts.flatten⟩ :=
    run_texts hp htexts
  cases hf : frame .start texts.flatten with
  | packet => exact absurd hf (line.caught htexts)
  | aborted => exact absurd hf habort
  | waits ph =>
    rw [← hk] at hf
    obtain ⟨hrecv, hphase⟩ := h.recv hf
    have hhis : (k.recv start texts.flatten).his = k.his :=
      (KRecv.recv_quiet h.live (by rw [hf]; simp)).1.1
    cases hfirst : firstHeader k.phase texts.flatten with
    | some r' =>
      rw [hfirst] at hrecv
      have hsame := firstHeader_append_of_some hfirst (p.text (i % 64))
      rw [hk, hheader] at hsame
      rw [← hsame] at hrecv
      exact ⟨_, hrun, hrecv, hhis ▸ hquote⟩
    | none =>
      rw [hfirst] at hrecv
      obtain ⟨hbefore, happ⟩ := firstHeader_append h.waits hf hfirst (p.text (i % 64))
      rw [hk, hheader] at happ
      by_cases hph : ph = .start
      · rw [hph, firstHeader_text hmod hlegal] at happ
        exact absurd (Option.some.inj happ) hr
      have hearly := firstHeader_text_of_ne (p := p) (n := i % 64) hbefore hph
      have hframe := frame_text hph hmod hlegal
      rw [← hphase] at hframe hearly
      have hlast := (Ahead.recv hrecv hframe).1
      have hhis' : ((k.recv start texts.flatten).recv start (p.text (i % 64))).his =
          (k.recv start texts.flatten).his :=
        (KRecv.recv_quiet hrecv.live (by rw [hframe]; simp)).1.1
      rw [hearly] at hlast
      rw [hphase] at hearly
      rw [Option.some.inj (happ.trans hearly)]
      exact ⟨_, hrun.tail (.again hp (.inl rfl)), hlast, by rw [hhis', hhis, hquote]⟩

section

variable (hdelivers : Delivers line start mem d) (hfile : d.file ≠ []) (hp : d.packets[i]? = some p)
  (htexts : ∀ t ∈ texts, line.damages (p.text (i % 64)) t)

include hdelivers hfile hp htexts

/-- A Control-C between packets ends the download. -/
theorem not_aborted_of_delivers : frame .start texts.flatten ≠ .aborted := by
  intro habort
  obtain ⟨k, hrun, hready, -⟩ := exists_waiting line start (Download.le_of_packets hp) mem
  rw [← hready.phase] at habort
  have hreturned : (k.recv start texts.flatten).returned = some 0 :=
    (KRecv.recv_quiet hready.live (by rw [habort]; simp)).1.2 habort
  obtain ⟨hlen, -⟩ := hdelivers _ (hrun.trans (run_texts hp htexts)) 0 hreturned
  exact hfile (length_eq_zero_iff.mp hlen.symm)

/-- Data that were acknowledged are given up. -/
theorem file_eq_of_lost (hj : i = j + 1)
    (hheader : firstHeader .start (texts.flatten ++ p.text (i % 64)) = some .early ∨
      firstHeader .start (texts.flatten ++ p.text (i % 64)) = some (.number (j % 64))) :
    d.file = (decode d.quote false (d.sent j ++ d.rest i)).1 := by
  subst hj
  have hi : j < d.data.length + 3 := Download.le_of_packets hp
  obtain ⟨k₀, hrun, hready, hquote₀⟩ := exists_waiting line start (Nat.le_of_lt hi) mem
  obtain ⟨k, hround, hahead, hphase, hquote⟩ := hready.exists_ahead line hi hquote₀
  have habort := not_aborted_of_delivers hdelivers hfile hp htexts
  obtain ⟨k', hrun', hsettled, hquote'⟩ : ∃ k', ReflTransGen (Round line start d)
      ⟨j + 1, k⟩ ⟨j + 1, k'⟩ ∧ Settled d.quote start (d.sent j) k' ∧ k'.his.quote = d.quote := by
    rcases hheader with hheader | hheader
    · exact hahead.exists_settled hphase hquote hp htexts habort (by simp) hheader
    · obtain ⟨k', hrun', hafter, hquote'⟩ := hahead.exists_settled hphase hquote hp htexts habort
        (fun heq => by have := Header.number.inj heq; omega) hheader
      rw [AfterHeader, if_pos rfl] at hafter
      exact ⟨k', hrun', hafter, hquote'⟩
  exact file_eq_of_returnsText hdelivers ((hrun.tail hround).trans hrun')
    (hsettled.returnsText line hi fun _ => hquote')

/-- Data are taken twice. -/
theorem file_eq_of_twice (htype : p.type ≠ breakType)
    (hheader : firstHeader .start (texts.flatten ++ p.text (i % 64)) = some (.number m))
    (hm : m ≠ i % 64) :
    d.file = (decode d.quote false (d.sent (i + 1) ++ d.rest i)).1 := by
  have hi := Download.le_of_packets hp
  obtain ⟨k, hrun, hready, hquote⟩ := exists_waiting line start hi mem
  have habort := not_aborted_of_delivers hdelivers hfile hp htexts
  -- the acknowledgement is lost
  obtain ⟨-, hahead, hphase, hquote'⟩ := exists_round_next line hp hready hquote htype
  rw [← Download.sent_succ hp] at hahead
  obtain ⟨k', hrun', hafter, hquote''⟩ := hahead.exists_settled hphase hquote' hp htexts habort
    (fun heq => hm (Header.number.inj heq)) hheader
  rw [AfterHeader, if_neg hm] at hafter
  exact file_eq_of_returnsText hdelivers ((hrun.tail (.again hp (.inl rfl))).trans hrun')
    (hafter.returnsText line hi fun _ => hquote'')

end

end Harm

/-! ### Files that are not delivered -/

section Files

variable {q : UInt8} {d : Download}

theorem not_isCtl_of_isQuote (h : IsQuote q) : ¬ IsCtl q ∧ q ≠ 77 := by
  obtain ⟨n, rfl⟩ := exists_ofFin q
  revert n
  decide +kernel

theorem isCtl_ktrans {c : UInt8} (hc : ¬ IsCtl c) (h : ¬ IsLiteral c) :
    IsCtl (ktrans c) ∧ ktrans c ^^^ 0x40 = c := by
  obtain ⟨n, rfl⟩ := exists_ofFin c
  revert n
  decide +kernel

/-- Every text without control characters and without a quote at its end is the text of a file. -/
theorem quotes_decode (htext : ∀ c ∈ text, ¬ IsCtl c) (e : Bool)
    (he : (decode q e text).2 = false) : Quotes q (decode q e text).1 (if e then q :: text else text) := by
  induction text generalizing e with
  | nil =>
    cases e with
    | true => exact absurd he (by simp [decode])
    | false => exact .nil
  | cons c text ih =>
    have hc := htext c mem_cons_self
    have ih := fun e => ih (forall_mem_cons.mp htext).2 e
    cases e with
    | true =>
      by_cases hl : IsLiteral c
      · have hk : ktrans c = c := by rw [ktrans, if_neg hl.1, if_neg hl.2]
        rw [decode, hk]
        exact .literal hc hl (ih false he)
      · obtain ⟨hctl, hxor⟩ := isCtl_ktrans hc hl
        have hquotes := Quotes.control hctl (ih false he)
        rwa [hxor] at hquotes
    | false =>
      rw [decode] at he ⊢
      split at he
      · rename_i hq
        rw [if_pos hq, hq]
        exact ih true he
      · rename_i hq
        rw [if_neg hq]
        exact .plain hc hq (ih false he)

/-- A quote in front of a text costs or saves one byte at most. -/
theorem length_decode_true (q : UInt8) (text : List UInt8) :
    (decode q false text).1.length ≤ (decode q true text).1.length ∧
      (decode q true text).1.length ≤ (decode q false text).1.length + 1 := by
  induction text with
  | nil => exact ⟨Nat.le_refl _, Nat.zero_le _⟩
  | cons c text ih =>
    rw [decode, decode, length_cons]
    split
    · omega
    · rw [length_cons]
      omega

/-- The same sender with other data. -/
def Download.withData (d : Download) (data : List Packet) (htype : ∀ p ∈ data, p.type = dataType)
    (hlegal : ∀ p ∈ data, p.Legal) (hend : (decode d.quote false (data.flatMap Packet.data)).2 = false) :
    Download :=
  { d with
    file := (decode d.quote false (data.flatMap Packet.data)).1
    data
    data_type := htype
    legal := by
      intro p hp
      have hd := d.legal
      simp only [mem_cons, mem_append] at hp hd
      rcases hp with rfl | rfl | hp | hp
      · exact hd _ (.inl rfl)
      · exact hd _ (.inr (.inl rfl))
      · exact hlegal p hp
      · exact hd _ (.inr (.inr (.inr hp)))
    quotes := by
      refine quotes_decode (fun c hc => ?_) false hend
      obtain ⟨p, hp, hc⟩ := mem_flatMap.mp hc
      exact (hlegal p hp).data c hc }

theorem Download.exists_withData {data : List Packet} (h : ∀ p ∈ data, p.type = dataType ∧ p.Legal)
    (hend : (decode d.quote false (data.flatMap Packet.data)).2 = false) :
    ∃ d' : Download, d'.data = data ∧ d'.packets = d.send :: d.header :: (data ++ [d.eof, d.brk]) ∧
      d'.quote = d.quote ∧ d'.file = (decode d.quote false (data.flatMap Packet.data)).1 :=
  ⟨d.withData data (fun p hp => (h p hp).1) (fun p hp => (h p hp).2) hend, rfl, rfl, rfl, rfl⟩

theorem Download.rest_data (hj : j ≤ d.data.length) :
    d.rest (j + 2) = (d.data.drop j).flatMap Packet.data := by
  rw [Download.rest, flatMap_def, map_drop, d.map_carries, drop_succ_cons, drop_succ_cons,
    drop_append_of_le_length (by rw [length_map]; exact hj)]
  simp [flatMap_def]

/-- Three letters, and a quote where one is needed. -/
def letters (q : UInt8) (e : Bool) : Packet :=
  ⟨dataType, if e then [77, 77, 77, q] else [77, 77, 77], false⟩

theorem decode_letters (hq : q ≠ 77) (e e' : Bool) :
    (decode q e (letters q e').data).1.length = 3 ∧ (decode q e (letters q e').data).2 = e' := by
  cases e <;> cases e' <;> simp [letters, decode, hq.symm]

/-- A packet with a single letter. -/
def letter : Packet := ⟨dataType, [77], false⟩

theorem decode_letter (hq : q ≠ 77) (e : Bool) :
    decode q e [77] = ([if e then 13 else 77], false) := by
  cases e with
  | true => rfl
  | false =>
    rw [decode, if_neg hq.symm]
    rfl

/-- Three letters are missed. -/
theorem length_decode_lost (hq : q ≠ 77) (u v : List UInt8) (e : Bool) :
    (decode q false (u ++ v)).1.length < (decode q false (u ++ ((letters q e).data ++ v))).1.length := by
  obtain ⟨hlen, hend⟩ := decode_letters hq (decode q false u).2 e
  have hv := length_decode_true q v
  rw [decode_append, decode_append q false u, decode_append q _ _ v, hend]
  simp only [length_append, hlen]
  cases (decode q false u).2 <;> cases e <;> omega

/-- Data in front of a letter are not taken twice without a trace. -/
theorem decode_twice_ne (hq : q ≠ 77) {w x : List UInt8} (hx : x ≠ []) :
    (decode q false (w ++ [77])).1 ≠ (decode q false (w ++ (x ++ [77]))).1 := by
  intro heq
  rw [decode_append, decode_append q false w, decode_append q _ x, decode_letter hq,
    decode_letter hq] at heq
  have htail := append_cancel_left heq
  obtain ⟨c, x, rfl⟩ := exists_cons_of_ne_nil hx
  have hempty : (decode q (decode q false w).2 (c :: x)).1 = [] := by
    have hlen := congrArg length htail
    rw [length_append, length_singleton, length_singleton] at hlen
    exact length_eq_zero_iff.mp (by omega)
  cases hw : (decode q false w).2 with
  | true =>
    rw [hw] at hempty
    cases hempty
  | false =>
    rw [hw, decode] at hempty
    split at hempty
    · rename_i hc
      cases x with
      | nil =>
        rw [hw, decode, if_pos hc] at htail
        exact absurd htail (by simp [decode])
      | cons c' x => exact absurd hempty (by simp [decode])
    · cases hempty

end Files

/-! ### Every download over a line -/

section Lines

variable {line : Line} {start : ℕ} {d : Download} {i : ℕ} {p : Packet} {texts : List (List UInt8)}

theorem carries_ne_nil (hp : d.packets[j]? = some p) (h : p.carries ≠ []) :
    ∃ m, j = m + 2 ∧ d.data[m]? = some p ∧ p.data ≠ [] := by
  have hdata : p.type = dataType := by
    by_contra hne
    exact h (by rw [Packet.carries, if_neg hne])
  rw [Packet.carries, if_pos hdata] at h
  rcases d.packets_cases hp with ⟨-, rfl⟩ | ⟨-, rfl⟩ | ⟨m, hm, hget⟩ | ⟨-, rfl⟩ | ⟨-, rfl⟩
  · exact absurd (d.send_type.symm.trans hdata) (by decide)
  · exact absurd (d.header_type.symm.trans hdata) (by decide)
  · exact ⟨m, hm, hget, h⟩
  · exact absurd (d.eof_type.symm.trans hdata) (by decide)
  · exact absurd (d.brk_type.symm.trans hdata) (by decide)

theorem letters_legal {q : UInt8} (hq : IsQuote q) (e : Bool) : (letters q e).Legal := by
  have hctl := (not_isCtl_of_isQuote hq).1
  refine ⟨(by decide : ¬ IsCtl dataType), fun c hc => ?_, .inl ?_⟩
  · obtain rfl | rfl : c = 77 ∨ c = q := by
      cases e
      · exact .inl (by simpa [letters] using hc)
      · simpa [letters] using hc
    · decide
    · exact hctl
  · cases e <;> simp [letters]

section

variable (h : ∀ mem d, Delivers line start mem d)

include h

/-- Data of the packet before are kept. -/
theorem keeps_of_delivers {p' : Packet}
    (hp' : d.packets[j]? = some p') (hne : p'.carries ≠ []) (hp : d.packets[j + 1]? = some p)
    (htexts : ∀ t ∈ texts, line.damages (p.text ((j + 1) % 64)) t) :
    ¬ (firstHeader .start (texts.flatten ++ p.text ((j + 1) % 64)) = some .early ∨
      firstHeader .start (texts.flatten ++ p.text ((j + 1) % 64)) = some (.number (j % 64))) := by
  intro hheader
  obtain ⟨m, rfl, hget, -⟩ := carries_ne_nil hp' hne
  obtain ⟨hm, hpm⟩ := List.getElem?_eq_some_iff.mp hget
  have hq := (not_isCtl_of_isQuote d.isQuote).2
  -- the receiver has a quote left over behind the packet, or not
  obtain ⟨e, he⟩ : ∃ e, (decode d.quote false ((d.data.take (m + 1)).flatMap Packet.data)).2 = e :=
      ⟨_, rfl⟩
  have hset : d.data.set m (letters d.quote e) = d.data.take m ++
    (letters d.quote e :: d.data.drop (m + 1)) :=
    set_eq_take_append_cons_drop.trans (if_pos hm)
  have htext : (d.data.set m (letters d.quote e)).flatMap Packet.data = (d.data.take m).flatMap
      Packet.data ++ ((letters d.quote e).data ++ (d.data.drop (m + 1)).flatMap Packet.data) := by
    rw [hset, flatMap_append, flatMap_cons]
  have hend : (decode d.quote false ((d.data.set m (letters d.quote e)).flatMap Packet.data)).2 =
    false := by
    have hfile := congrArg Prod.snd (decode_of_quotes d.quotes)
    rw [← take_append_drop (m + 1) d.data, flatMap_append, decode_append, he] at hfile
    rw [htext, decode_append, decode_append, (decode_letters hq _ e).2]
    exact hfile
  have hlegal : ∀ p ∈ d.data.set m (letters d.quote e), p.type = dataType ∧ p.Legal := by
    intro p hp
    rcases mem_or_eq_of_mem_set hp with hp | rfl
    · exact ⟨d.data_type p hp, d.legal p (by simp [hp])⟩
    · exact ⟨rfl, letters_legal d.isQuote e⟩
  obtain ⟨d', hdata, hpackets, hquote, hfile⟩ := d.exists_withData hlegal hend
  have hlength : d'.data.length = d.data.length := by rw [hdata, length_set]
  have hpm' : d'.packets[m + 2 + 1]? = some p := by
    rw [← hp, hpackets, Download.packets, List.getElem?_cons_succ, List.getElem?_cons_succ,
      List.getElem?_cons_succ, List.getElem?_cons_succ, ← set_append_left _ _ hm,
      List.getElem?_set_ne (by omega)]
  have hlost := length_decode_lost hq ((d.data.take m).flatMap Packet.data)
    ((d.data.drop (m + 1)).flatMap Packet.data) e
  rw [← htext, ← hfile] at hlost
  have heq := file_eq_of_lost (h (fun _ => 0) d')
    (by intro hnil; rw [hnil] at hlost; exact absurd hlost (by simp))
    hpm' htexts rfl hheader
  rw [Download.sent_data (by omega), Download.rest_data (by omega), hdata,
    take_set_of_le (Nat.le_refl m), drop_set_of_lt (Nat.lt_succ_self m), hquote] at heq
  rw [heq] at hlost
  exact absurd hlost (Nat.lt_irrefl _)

/-- Data of the packet are taken once. -/
theorem once_of_delivers (hp : d.packets[i]? = some p)
    (hne : p.carries ≠ []) (htexts : ∀ t ∈ texts, line.damages (p.text (i % 64)) t)
    (hheader : firstHeader .start (texts.flatten ++ p.text (i % 64)) = some (.number m)) : m = i % 64 := by
  by_contra hm
  obtain ⟨j, rfl, hget, hdata⟩ := carries_ne_nil hp hne
  obtain ⟨hj, hpj⟩ := List.getElem?_eq_some_iff.mp hget
  have hq := (not_isCtl_of_isQuote d.isQuote).2
  -- the download goes on with a single letter
  have htext : (d.data.take (j + 1) ++ [letter]).flatMap Packet.data =
      (d.data.take (j + 1)).flatMap Packet.data ++ [77] := by
    rw [flatMap_append]
    rfl
  have hend : (decode d.quote false ((d.data.take (j + 1) ++ [letter]).flatMap Packet.data)).2 =
    false := by
    rw [htext, decode_append, decode_letter hq]
  have hlegal : ∀ p ∈ d.data.take (j + 1) ++ [letter], p.type = dataType ∧ p.Legal := by
    refine forall_mem_append.mpr ⟨fun p hp => ?_, forall_mem_singleton.mpr
      ⟨rfl, by decide, by decide +kernel, by decide⟩⟩
    exact ⟨d.data_type p (mem_of_mem_take hp), d.legal p (by simp [mem_of_mem_take hp])⟩
  obtain ⟨d', hdata', -, hquote, hfile⟩ := d.exists_withData hlegal hend
  rw [htext] at hfile
  have htake : (d.data.take (j + 1)).length = j + 1 := by rw [length_take]; omega
  have hlength : d'.data.length = j + 2 := by rw [hdata', length_append, htake]; rfl
  have hget' : d'.data[j]? = some p := by
    rw [hdata', List.getElem?_append_left (by omega), List.getElem?_take_of_lt (by omega), hget]
  have hpackets : d'.packets[j + 2]? = some p := by
    rw [Download.packets, List.getElem?_cons_succ, List.getElem?_cons_succ,
      List.getElem?_append_left (by omega), hget']
  have hdrop : d'.data.drop j = [p, letter] := by
    rw [hdata', take_succ_eq_append_getElem hj, hpj, append_assoc, drop_left']
    · rfl
    · rw [length_take]
      omega
  have heq := file_eq_of_twice (h (fun _ => 0) d') (by rw [hfile, decode_append, decode_letter hq]; simp)
    hpackets htexts (by rw [d'.data_type p (mem_of_getElem? hget')]; decide) hheader hm
  rw [Download.sent_data (by omega), Download.rest_data (by omega), hdrop, hdata',
    take_left' htake, hfile, hquote] at heq
  exact decode_twice_ne hq hdata heq

/-- A line that delivers every file is safe. -/
theorem safe_of_delivers : line.Safe := by
  intro d i p texts hp htexts
  refine ⟨fun p' hi hp' hne => ?_, fun hne m hheader => once_of_delivers h hp hne htexts hheader,
    fun hfile => not_aborted_of_delivers (h (fun _ => 0) d) hfile hp htexts⟩
  obtain _ | j := i
  · omega
  have hkeeps := keeps_of_delivers h hp' hne hp htexts
  rw [not_or] at hkeeps
  exact hkeeps

end

/-- Every download over a line delivers its file exactly if the line is safe. -/
theorem delivers_iff_safe (line : Line) (start : ℕ) :
    (∀ (mem : ℕ → UInt8) (d : Download), Delivers line start mem d) ↔ line.Safe :=
  ⟨safe_of_delivers, fun h mem _ => delivers_of_safe h mem⟩

/-- A file of two letters, each in a packet of its own. -/
def twoLetters : Download where
  file := [65, 66]
  send := ⟨sendType, [], false⟩
  header := ⟨70, [65], false⟩
  data := [⟨dataType, [65], false⟩, ⟨dataType, [66], false⟩]
  eof := ⟨90, [], false⟩
  brk := ⟨breakType, [], false⟩
  quote := kEscape
  send_type := rfl
  header_type := rfl
  data_type := by decide
  eof_type := rfl
  brk_type := rfl
  quote_eq := rfl
  isQuote := by decide
  legal := by
    have hlegal : ∀ p ∈ [⟨sendType, [], false⟩, ⟨70, [65], false⟩, ⟨dataType, [65], false⟩,
        ⟨dataType, [66], false⟩, ⟨90, [], false⟩, (⟨breakType, [], false⟩ : Packet)],
          ¬ IsCtl p.type ∧ (∀ c ∈ p.data, ¬ IsCtl c) ∧ p.data.length + 3 ≤ 94 := by decide +kernel
    exact fun p hp => ⟨(hlegal p hp).1, (hlegal p hp).2.1, .inl (hlegal p hp).2.2⟩
  quotes := .plain (by decide) (by decide) (.plain (by decide) (by decide) .nil)

/-- The second letter in its packet. -/
def secondLetter : List UInt8 := Packet.text ⟨dataType, [66], false⟩ 3

/-- A line that can make a control character of the length of that packet. -/
def damagedLength : Line where
  damages text text' := text = secondLetter ∧ text' = secondLetter.set 1 0x1F
  length_eq h := by rw [h.1, h.2]; rfl
  number_eq h := by rw [h.1, h.2]; rfl
  caught {text texts} h := by
    have hwaits : frame .start texts.flatten = .waits .start := by
      induction texts with
      | nil => rfl
      | cons t texts ih =>
        have hone : frame .start t = .waits .start := by
          rw [(h t mem_cons_self).2]
          decide
        rw [flatten_cons, frame_append hone]
        exact ih (forall_mem_cons.mp h).2
    rw [hwaits]
    simp

/-- The first letter was acknowledged and is given up. -/
theorem not_delivers_damagedLength : ¬ Delivers damagedLength 0 (fun _ => 0) twoLetters := by
  intro hdelivers
  have hdamaged : ∀ t ∈ [secondLetter.set 1 0x1F], damagedLength.damages secondLetter t :=
    fun t ht => ⟨rfl, mem_singleton.mp ht⟩
  have hlost := file_eq_of_lost (i := 3) hdelivers (by decide) rfl hdamaged rfl (.inl (by decide))
  cases hlost

end Lines

end UBoot.Serial
