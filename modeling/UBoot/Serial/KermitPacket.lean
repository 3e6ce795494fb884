import UBoot.Serial.KermitLine

/-!
# A packet that the receiver takes

An undamaged copy of a packet is taken if the receiver waits for a start, and its data are behind
the position then. If the receiver waits for anything else, the start of the copy is an error and
the rest is skipped.
-/

namespace UBoot.Serial

open UBoot.Common List

/-! ### Characters -/

variable {c : UInt8} {p : Packet} {n : ℕ}

section Characters

theorem untochar_tochar (h : n < 224) : untochar (tochar n) = n ∧ ¬ IsControl (tochar n) := by
  have hall : ∀ k : Fin 224, untochar (tochar k) = k ∧ ¬ IsControl (tochar k) := by decide +kernel
  exact hall ⟨n, h⟩

theorem not_isControl_checkChar (sum : ℕ) : ¬ IsControl (checkChar sum) :=
  (untochar_tochar (by omega)).2

theorem not_isControl_of_not_isCtl (h : ¬ IsCtl c) : ¬ IsControl c := by
  obtain ⟨n, rfl⟩ := exists_ofFin c
  revert n
  decide +kernel

theorem ne_of_not_isControl (h : ¬ IsControl c) : c ≠ startChar ∧ c ≠ etxChar :=
  ⟨fun hc => h (by rw [hc]; decide), fun hc => h (by rw [hc]; decide)⟩

theorem charSum_append (v w : List UInt8) : charSum (v ++ w) = charSum v + charSum w := by
  rw [charSum, charSum, charSum, map_append, sum_append]

theorem charSum_concat (w : List UInt8) (c : UInt8) : charSum (w ++ [c]) = charSum w + c.toNat :=
  charSum_append w [c]

theorem charSum_cons (c : UInt8) (w : List UInt8) : charSum (c :: w) = c.toNat + charSum w := by
  rw [charSum, charSum, map_cons, sum_cons]

end Characters

/-! ### Passing over characters -/

section Passing

variable {start : ℕ} {s s' s'' : KRecv}

/-- The characters lead from one state to another, without a reply. -/
def Passes (start : ℕ) (s : KRecv) (chars : List UInt8) (s' : KRecv) : Prop :=
  ∀ rest, s.recv start (chars ++ rest) = s'.recv start rest ∧ s.replies start (chars ++ rest) =
    s'.replies start rest

theorem Passes.refl (s : KRecv) : Passes start s [] s := fun _ => ⟨rfl, rfl⟩

theorem Passes.trans {v w : List UInt8} (h : Passes start s v s') (h' : Passes start s' w s'') :
    Passes start s (v ++ w) s'' := by
  intro rest
  rw [append_assoc, (h _).1, (h _).2]
  exact h' rest

theorem passes_singleton {p : Phase} (hlive : s.returned = none) (h : s.phase.next c = .goes p) :
    Passes start s [c] { s.char c with phase := p } := by
  intro rest
  rw [singleton_append, KRecv.recv, KRecv.replies, KRecv.getc_of_goes hlive h]
  exact ⟨rfl, rfl⟩

theorem Passes.cons {p : Phase} {w : List UInt8} (hlive : s.returned = none)
    (h : s.phase.next c = .goes p) (h' : Passes start { s.char c with phase := p } w s') :
    Passes start s (c :: w) s' :=
  (passes_singleton hlive h).trans h'

end Passing

/-! ### The parts of a packet -/

section Parts

variable {start : ℕ} {s : KRecv}

/-- The state when the data of a packet begin. -/
def KRecv.began (s : KRecv) (n : ℕ) (type : UInt8) (phase : Phase) : KRecv :=
  { s.checkpoint n with kState := type, phase }

theorem KRecv.checkpoint_eq (s : KRecv) (n : ℕ) : ∃ kState kStateSaved pos,
    s.checkpoint n = { s with n, lastN := some n, kState, kStateSaved, pos, posSaved := pos } := by
  rw [KRecv.checkpoint]
  split
  · rename_i hlast
    exact ⟨_, _, _, by rw [← hlast]⟩
  · exact ⟨_, _, _, rfl⟩

theorem KRecv.checkpoint_returned (s : KRecv) (n : ℕ) : (s.checkpoint n).returned = s.returned := by
  obtain ⟨_, _, _, heq⟩ := s.checkpoint_eq n
  rw [heq]

variable {length sum : ℕ} {type : UInt8}

/-- Start, length, sequence number and type. -/
theorem passes_first {p : Phase} (hlive : s.returned = none)
    (hs : s.phase = .start) (hn : n < 64) (hlength : length < 95)
    (hp : (Phase.type (charSum [tochar length, tochar n]) length).next type = .goes p) :
    Passes start s [startChar, tochar length, tochar n, type] (s.began n type p) := by
  obtain ⟨hlen, hlenc⟩ := untochar_tochar (n := length) (by omega)
  obtain ⟨hnum, hnumc⟩ := untochar_tochar (n := n) (by omega)
  have hchar : s.char startChar = s := by rw [KRecv.char, hs]
  have hseq : ∀ sum, KRecv.char { s with phase := .seq sum length } (tochar n) =
      { s.checkpoint n with phase := .seq sum length } := by
    intro sum
    simp only [KRecv.char, hnum, KRecv.checkpoint]
    split <;> rfl
  refine Passes.cons hlive (by rw [hs]; rfl) ?_
  rw [hchar]
  refine Passes.cons hlive (if_neg hlenc) ?_
  rw [hlen]
  refine Passes.cons hlive (if_neg hnumc) ?_
  change Passes start
    { KRecv.char { s with phase := .seq _ length } (tochar n) with phase := .type _ length } [type] _
  rw [hseq]
  exact passes_singleton ((s.checkpoint_returned n).trans hlive) hp

/-- An extended length and its check. -/
theorem passes_long {hi lo : UInt8} (hlive : s.returned = none) (hhi : ¬ IsControl hi)
    (hlo : ¬ IsControl lo) : Passes start (s.began n type (.lenHi sum))
      [hi, lo, checkChar (sum + hi.toNat + lo.toNat)]
        (s.began n type (body (sum + hi.toNat + lo.toNat +
        (checkChar (sum + hi.toNat + lo.toNat)).toNat) (untochar hi * 95 + untochar lo))) := by
  have hlive' : (s.checkpoint n).returned = none := (s.checkpoint_returned n).trans hlive
  refine Passes.cons hlive' (if_neg hhi)
    (Passes.cons hlive' (if_neg hlo) (Passes.cons hlive' ?_ (Passes.refl _)))
  rw [Phase.next, if_neg (not_isControl_checkChar _), if_neg (not_not.mpr rfl)]

theorem Packet.Legal.length_le (hp : p.Legal) (hshort : ¬ p.long) : p.data.length + 3 ≤ 94 := by
  rcases hp.length with h | h
  · exact h
  · exact absurd h.1 hshort

/-- Everything in front of the data. -/
theorem passes_head (hlive : s.returned = none) (hs : s.phase = .start)
    (hn : n < 64) (hp : p.Legal) :
    Passes start s (startChar :: p.head n)
      (s.began n p.type (body (charSum (p.head n)) (p.data.length + 1))) := by
  have htype := not_isControl_of_not_isCtl hp.type
  rw [Packet.head]
  split
  · have hlength := hp.length
    obtain ⟨hhi, hhic⟩ := untochar_tochar (n := (p.data.length + 1) / 95) (by omega)
    obtain ⟨hlo, hloc⟩ := untochar_tochar (n := (p.data.length + 1) % 95) (by omega)
    have hfirst : Passes start s [startChar, tochar 0, tochar n, p.type]
        (s.began n p.type (.lenHi (charSum [tochar 0, tochar n] + p.type.toNat))) :=
      passes_first hlive hs hn (by omega) (if_neg htype)
    have hlong := hfirst.trans (passes_long hlive hhic hloc)
    simp only [hhi, hlo, Nat.div_add_mod', ← charSum_concat] at hlong
    exact hlong
  · rename_i hshort
    have hlt := hp.length_le hshort
    refine passes_first hlive hs hn (by omega) ?_
    rw [Phase.next, if_neg htype, ← charSum_concat]
    rfl

/-- The state behind the data of a packet. -/
def KRecv.afterData (s : KRecv) (data : List UInt8) : KRecv :=
  if s.kState = dataType then
    { s with
      mem := store s.mem s.pos.addr (decode s.his.quote s.pos.escape data).1
      pos := ⟨(decode s.his.quote s.pos.escape data).2, s.pos.addr +
        (decode s.his.quote s.pos.escape data).1.length⟩ }
  else if s.kState = sendType then { s with sendParms := (s.sendParms ++ data).take 19 }
  else s

theorem KRecv.afterData_nil (s : KRecv) (hparms : s.sendParms.length ≤ 19) :
    s.afterData [] = s := by
  have hstore : store s.mem s.pos.addr [] = s.mem := by
    funext i
    exact store_of_outside _ _ _ (by rw [length_nil]; omega)
  rw [KRecv.afterData]
  split
  · simp only [decode, hstore, length_nil, add_zero]
  · split
    · rw [append_nil, take_of_length_le hparms]
    · rfl

theorem KRecv.afterData_kDataChar (hd : s.kState = dataType) (c : UInt8) (data : List UInt8) :
    (s.kDataChar c).afterData data = s.afterData (c :: data) := by
  have hstate : (s.kDataChar c).kState = dataType := by
    obtain ⟨mem, pos, heq, -, -⟩ := s.kDataChar_eq c
    rw [heq]
    exact hd
  rw [KRecv.afterData, KRecv.afterData, if_pos hstate, if_pos hd, KRecv.kDataChar]
  cases he : s.pos.escape with
  | true =>
    simp only [if_true, KRecv.binDataChar, decode, store_cons, length_cons]
    rw [Nat.add_right_comm, Nat.add_assoc]
  | false =>
    rw [if_neg Bool.false_ne_true]
    by_cases hc : c = s.his.quote
    · simp only [if_pos hc, decode]
    · simp only [if_neg hc, decode, KRecv.binDataChar, he, store_cons, length_cons]
      rw [Nat.add_right_comm, Nat.add_assoc]

/-- One character of the data, and then the rest. -/
theorem KRecv.afterData_cons (hs : s.phase = .data sum length) (hparms : s.sendParms.length ≤ 19)
    (c : UInt8) (data : List UInt8) :
    (s.char c).afterData data = s.afterData (c :: data) ∧ (s.char c).sendParms.length ≤ 19 := by
  rw [KRecv.char, hs]
  dsimp only
  split
  · rename_i hd
    refine ⟨KRecv.afterData_kDataChar hd c data, ?_⟩
    obtain ⟨mem, pos, heq, -, -⟩ := s.kDataChar_eq c
    rw [heq]
    exact hparms
  · rename_i hd
    split
    · rename_i hsend
      rw [KRecv.sendParm]
      split
      · refine ⟨?_, by rw [length_append, length_singleton]; omega⟩
        simp only [KRecv.afterData, if_neg hd, if_pos hsend, append_assoc, singleton_append]
      · refine ⟨?_, hparms⟩
        rw [KRecv.afterData, KRecv.afterData, if_neg hd, if_neg hd, if_pos hsend, if_pos hsend,
          take_append_of_le_length (by omega), take_append_of_le_length (by omega)]
    · rename_i hother
      exact ⟨by simp only [KRecv.afterData, if_neg hd, if_neg hother], hparms⟩

theorem KRecv.afterData_phase (s : KRecv) (phase : Phase) (data : List UInt8) :
    ({ s with phase } : KRecv).afterData data = { s.afterData data with phase } := by
  simp only [KRecv.afterData]
  split
  · rfl
  · split <;> rfl

theorem passes_data {data : List UInt8} (hlive : s.returned = none)
    (hs : s.phase = body sum (data.length + 1)) (hparms : s.sendParms.length ≤ 19)
    (hdata : ∀ c ∈ data, ¬ IsControl c) :
    Passes start s data { s.afterData data with phase := .check (sum + charSum data) } := by
  induction data generalizing s sum with
  | nil =>
    rw [s.afterData_nil hparms]
    have hphase : s.phase = .check (sum + charSum []) := hs
    rw [← hphase]
    exact Passes.refl s
  | cons c data ih =>
    have hdataPhase : s.phase = .data sum (data.length + 2) := by
      rw [hs, body, length_cons, if_pos (by omega)]
    have hc := hdata c mem_cons_self
    have hnext : s.phase.next c = .goes (body (sum + c.toNat) (data.length + 1)) := by
      rw [hdataPhase, Phase.next, if_neg hc]
      rfl
    obtain ⟨hafter, hlen⟩ := KRecv.afterData_cons hdataPhase hparms c data
    refine Passes.cons hlive hnext ?_
    have hrest : Passes start { s.char c with phase := body (sum + c.toNat) (data.length + 1) } data _ :=
      ih ((s.char_his c).2.trans hlive) rfl hlen (forall_mem_cons.mp hdata).2
    rw [KRecv.afterData_phase, hafter] at hrest
    rw [charSum_cons, ← add_assoc]
    exact hrest

/-- The state in which a packet turns out to be good. -/
def KRecv.received (s : KRecv) (p : Packet) (n : ℕ) : KRecv :=
  ({ s.checkpoint n with kState := p.type } : KRecv).afterData p.data

theorem KRecv.received_same (s : KRecv) (p : Packet) (n : ℕ) :
    ((s.received p n).kState = p.type ∧ (s.received p n).lastN = some n ∧ (s.received p n).n = n) ∧
      (s.received p n).returned = s.returned ∧ (s.received p n).his = s.his := by
  obtain ⟨_, _, _, heq⟩ := s.checkpoint_eq n
  rw [KRecv.received, KRecv.afterData, heq]
  split
  · exact ⟨⟨rfl, rfl, rfl⟩, rfl, rfl⟩
  · split <;> exact ⟨⟨rfl, rfl, rfl⟩, rfl, rfl⟩

/-- An undamaged packet is good. -/
theorem KRecv.recv_text (start : ℕ) (hlive : s.returned = none) (hs : s.phase = .start)
    (hparms : s.sendParms = []) (hn : n < 64) (hp : p.Legal) :
    s.recv start (p.text n) = ((s.received p n).packetGood start).1 ∧
      s.replies start (p.text n) = ((s.received p n).packetGood start).2.toList := by
  obtain ⟨_, _, _, heq⟩ := s.checkpoint_eq n
  have hhead : Passes start s (startChar :: p.head n) _ := passes_head hlive hs hn hp
  have hdata : Passes start (s.began n p.type (body (charSum (p.head n)) (p.data.length + 1))) p.data _ :=
    passes_data ((s.checkpoint_returned n).trans hlive) rfl
      (by rw [KRecv.began, heq, hparms]; exact Nat.zero_le _)
      fun c hc => not_isControl_of_not_isCtl (hp.data c hc)
  have hstate : (s.began n p.type (body (charSum (p.head n)) (p.data.length + 1))).afterData
      p.data = { s.received p n with phase := body (charSum (p.head n)) (p.data.length + 1) } :=
    KRecv.afterData_phase { s.checkpoint n with kState := p.type } _ _
  rw [hstate, ← charSum_append] at hdata
  have hreturned : (s.received p n).returned = none := (s.received_same p n).2.1.trans hlive
  have hcheck : Passes start { s.received p n with phase := .check (charSum (p.head n ++ p.data)) }
      [checkChar (charSum (p.head n ++ p.data))] { s.received p n with phase := .fin } :=
    passes_singleton hreturned
      (by rw [Phase.next, if_neg (not_isControl_checkChar _), if_neg (not_not.mpr rfl)])
  have htext : p.text n =
      (startChar :: p.head n) ++ (p.data ++ [checkChar (charSum (p.head n ++ p.data))]) ++ [endChar] := by
    simp [Packet.text]
  have hend : ({ s.received p n with phase := .fin } : KRecv).getc start endChar =
      (s.received p n).packetGood start := by
    rw [KRecv.getc, if_neg (by simp [hreturned])]
    rfl
  obtain ⟨hrecv, hreplies⟩ := (hhead.trans (hdata.trans hcheck)) [endChar]
  rw [htext, hrecv, hreplies, KRecv.recv, KRecv.recv, KRecv.replies, KRecv.replies, hend, append_nil]
  exact ⟨rfl, rfl⟩

end Parts

/-! ### What a packet does to the position -/

section Taking

variable {q : UInt8} {start : ℕ} {text : List UInt8} {s : KRecv} {n : ℕ}

/-- The receiver waits for a packet, and with this number it comes behind this text. -/
structure Ready (q : UInt8) (start : ℕ) (text : List UInt8) (n : ℕ) (s : KRecv) : Prop where
  phase : s.phase = .start
  live : s.returned = none
  parms : s.sendParms = []
  here : At q start text (s.checkpoint n).pos s.mem

theorem Settled.ready (h : Settled q start text s) (hs : s.phase = .start) (n : ℕ) :
    Ready q start text n s := by
  obtain ⟨hpos, hparms⟩ := h.early (by rw [hs]; trivial)
  refine ⟨hs, h.live, hparms, ?_⟩
  rw [KRecv.checkpoint]
  split
  · exact h.saved
  · exact hpos ▸ h.saved

theorem Ahead.ready_next {text' : List UInt8} {m : ℕ} (h : Ahead q start text text' n s)
    (hs : s.phase = .start) (hm : m ≠ n) : Ready q start text' m s := by
  refine ⟨hs, h.live, h.parms, ?_⟩
  rw [KRecv.checkpoint, h.last, if_neg fun heq => hm (Option.some.inj heq).symm]
  exact h.here

/-- Data behind a text. -/
theorem At.append {pos : DataPos} {mem : ℕ → UInt8} (h : At q start text pos mem)
    (data : List UInt8) :
    At q start (text ++ data) ⟨(decode q pos.escape data).2, pos.addr +
      (decode q pos.escape data).1.length⟩ (store mem pos.addr (decode q pos.escape data).1) := by
  have happ := decode_append q false text data
  rw [← h.escape] at happ
  refine ⟨?_, ?_, ?_⟩
  · rw [happ]
  · rw [happ, length_append, ← add_assoc, ← h.addr]
  · rw [happ, contains_append, ← h.addr]
    refine ⟨h.bytes.congr fun i _ hi => store_of_outside _ _ _ (.inl (h.addr ▸ hi)), contains_store _ _ _⟩

theorem KRecv.received_of_data (hd : p.type = dataType) (s : KRecv) (n : ℕ) :
    s.received p n =
      { s.checkpoint n with
        kState := p.type
        mem := store s.mem (s.checkpoint n).pos.addr
          (decode s.his.quote (s.checkpoint n).pos.escape p.data).1
        pos := ⟨(decode s.his.quote (s.checkpoint n).pos.escape p.data).2, (s.checkpoint n).pos.addr +
          (decode s.his.quote (s.checkpoint n).pos.escape p.data).1.length⟩ } := by
  rw [KRecv.received, KRecv.afterData, if_pos hd]
  obtain ⟨_, _, _, heq⟩ := s.checkpoint_eq n
  rw [heq]

theorem KRecv.received_of_not_data (hd : p.type ≠ dataType) (s : KRecv) (n : ℕ) :
    ∃ sendParms, s.received p n = { s.checkpoint n with kState := p.type, sendParms } ∧
      (p.type = sendType → s.sendParms = [] → sendParms = p.data.take 19) := by
  obtain ⟨_, _, _, heq⟩ := s.checkpoint_eq n
  rw [KRecv.received, KRecv.afterData, if_neg hd]
  split
  · refine ⟨_, rfl, fun _ hparms => ?_⟩
    rw [heq, hparms, nil_append]
  · rename_i hs
    exact ⟨_, rfl, fun hsend => absurd hsend hs⟩

/-- The position behind the data of a packet. -/
theorem Ready.received_here (h : Ready q start text n s)
    (hquote : p.type = dataType → s.his.quote = q) :
    At q start text (s.received p n).posSaved (s.received p n).mem ∧
      At q start (text ++ p.carries) (s.received p n).pos (s.received p n).mem := by
  have hhere := h.here
  obtain ⟨_, _, _, hcheck⟩ := s.checkpoint_eq n
  rw [Packet.carries]
  split
  · rename_i hd
    rw [s.received_of_data hd n, hquote hd]
    refine ⟨?_, hhere.append p.data⟩
    rw [hcheck] at hhere ⊢
    exact hhere.congr fun i hi => store_of_outside _ _ _ (.inl hi)
  · rename_i hd
    obtain ⟨parms, heq, -⟩ := s.received_of_not_data hd n
    rw [hcheck] at hhere heq
    rw [heq, append_nil]
    exact ⟨hhere, hhere⟩

/-- The quote that a send packet names. -/
theorem quote_handleSendPacket (data : List UInt8) :
    (handleSendPacket (data.take 19)).1.quote = data[5]?.getD kEscape := by
  have htake : (data.take 19)[5]? = data[5]? := getElem?_take_of_lt (by omega)
  rw [handleSendPacket]
  dsimp only
  split
  · rw [getElem?_dropLast, if_pos (by omega), htake]
  · rw [htake]

section

variable (h : Ready q start text n s) (hn : n < 64) (hp : p.Legal)

include h hn hp

/-- A packet other than a break is taken and acknowledged. -/
theorem Ready.take (hquote : p.type = dataType → s.his.quote = q) (htype : p.type ≠ breakType) :
    Ahead q start text (text ++ p.carries) n (s.recv start (p.text n)) ∧
      (s.recv start (p.text n)).phase = .start ∧ ∃ r ∈ s.replies start (p.text n),
      r.type = ackType ∧ r.n = n := by
  obtain ⟨hrecv, hreplies⟩ := KRecv.recv_text start h.live h.phase h.parms hn hp
  obtain ⟨hsaved, hhere⟩ := h.received_here hquote
  obtain ⟨⟨hstate, hlast, hnum⟩, hreturned, -⟩ := s.received_same p n
  rw [hrecv, hreplies, KRecv.packetGood]
  split
  · exact ⟨⟨hsaved, hhere, hlast, trivial, rfl, hreturned.trans h.live⟩, rfl, _,
      mem_singleton_self _, rfl, hnum⟩
  · refine ⟨⟨hsaved, hhere, hlast, trivial, rfl, ?_⟩, rfl, _, mem_singleton_self _, rfl, hnum⟩
    rw [if_neg (by rw [hstate]; exact htype)]

/-- The quote after a packet: that of a send packet, or the one that was there. -/
theorem Ready.take_quote :
    (s.recv start (p.text n)).his.quote = if p.type = sendType then p.data[5]?.getD
    kEscape else s.his.quote := by
  obtain ⟨hrecv, -⟩ := KRecv.recv_text start h.live h.phase h.parms hn hp
  obtain ⟨⟨hstate, -, -⟩, -, hhis⟩ := s.received_same p n
  rw [hrecv, KRecv.packetGood, hstate]
  split
  · rename_i hsend
    have hdata : p.type ≠ dataType := by rw [hsend]; decide
    obtain ⟨parms, heq, hparms⟩ := s.received_of_not_data hdata n
    rw [heq, hparms hsend h.parms]
    exact quote_handleSendPacket p.data
  · exact congrArg His.quote hhis

/-- A break ends the download. -/
theorem Ready.finish (htype : p.type = breakType) :
    (s.recv start (p.text n)).returned = some (decode q false text).1.length ∧
      load (s.recv start (p.text n)).mem start (decode q false text).1.length =
      (decode q false text).1 := by
  have hdata : p.type ≠ dataType := by rw [htype]; decide
  have hsend : p.type ≠ sendType := by rw [htype]; decide
  obtain ⟨hrecv, -⟩ := KRecv.recv_text start h.live h.phase h.parms hn hp
  obtain ⟨-, hhere⟩ := h.received_here fun hd => absurd hd hdata
  obtain ⟨⟨hstate, -, -⟩, -, -⟩ := s.received_same p n
  rw [Packet.carries, if_neg hdata, append_nil] at hhere
  rw [hrecv, KRecv.packetGood, if_neg (by rw [hstate]; exact hsend)]
  rw [if_pos (by rw [hstate]; exact htype), hhere.addr, Nat.add_sub_cancel_left]
  exact ⟨rfl, hhere.bytes.load_eq⟩

end

end Taking

/-! ### A copy that comes too early -/

section Skipping

theorem frame_skip {chars : List UInt8} (h : ∀ c ∈ chars, c ≠ startChar ∧ c ≠ etxChar) :
    frame .start chars = .waits .start := by
  induction chars with
  | nil => rfl
  | cons c chars ih =>
    obtain ⟨hstart, hetx⟩ := h c mem_cons_self
    rw [frame, Phase.next, if_neg hstart, if_neg hetx]
    exact ih (forall_mem_cons.mp h).2

/-- There is no start and no Control-C in the rest of a packet. -/
theorem ne_of_mem_text (hn : n < 64) (hp : p.Legal) (hc : c ∈ (p.text n).tail) :
    c ≠ startChar ∧ c ≠ etxChar := by
  have hhead : ∀ c ∈ p.head n, ¬ IsControl c := by
    have hnum := (untochar_tochar (n := n) (by omega)).2
    have htype := not_isControl_of_not_isCtl hp.type
    have hlength := hp.length
    intro c hc
    rw [Packet.head] at hc
    split at hc
    · simp only [cons_append, nil_append, mem_cons, not_mem_nil, or_false] at hc
      rcases hc with rfl | rfl | rfl | rfl | rfl | rfl
      · exact (untochar_tochar (by omega)).2
      · exact hnum
      · exact htype
      · exact (untochar_tochar (by omega)).2
      · exact (untochar_tochar (by omega)).2
      · exact not_isControl_checkChar _
    · rename_i hshort
      simp only [mem_cons, not_mem_nil, or_false] at hc
      rcases hc with rfl | rfl | rfl
      · have hlt := hp.length_le hshort
        exact (untochar_tochar (by omega)).2
      · exact hnum
      · exact htype
  rw [Packet.text, tail_cons, mem_append, mem_append] at hc
  rcases hc with (hc | hc) | hc
  · exact ne_of_not_isControl (hhead c hc)
  · exact ne_of_not_isControl (not_isControl_of_not_isCtl (hp.data c hc))
  · rcases mem_pair.mp hc with rfl | rfl
    · exact ne_of_not_isControl (not_isControl_checkChar _)
    · decide

/-- The start of a packet is an error everywhere else. -/
theorem next_startChar {ph : Phase} (h : ph ≠ .start) : ph.next startChar = .error := by
  have hcontrol : IsControl startChar := by decide
  cases ph with
  | start => exact absurd rfl h
  | fin => rfl
  | _ => rw [Phase.next, if_pos hcontrol]

theorem frame_text {ph : Phase} (h : ph ≠ .start) (hn : n < 64) (hp : p.Legal) :
    frame ph (p.text n) = .waits .start := by
  have hskip : frame .start (p.text n).tail = .waits .start :=
    frame_skip fun c hc => ne_of_mem_text hn hp hc
  rw [Packet.text] at hskip ⊢
  rw [frame, next_startChar h]
  exact hskip

theorem firstHeader_text (hn : n < 64) (hp : p.Legal) :
    firstHeader .start (p.text n) = some (.number n) := by
  obtain ⟨length, rest, hlt, htext⟩ : ∃ length rest, length < 95 ∧
      p.text n = startChar :: tochar length :: tochar n :: rest := by
    rw [Packet.text, Packet.head]
    split
    · exact ⟨0, _, by omega, rfl⟩
    · rename_i hshort
      exact ⟨p.data.length + 3, _, Nat.lt_succ_of_le (hp.length_le hshort), rfl⟩
  obtain ⟨hnum, hnumc⟩ := untochar_tochar (n := n) (by omega)
  have hlenc := (untochar_tochar (n := length) (by omega)).2
  rw [htext, firstHeader_cons (.inl rfl), Phase.next, if_pos rfl]
  dsimp only
  rw [firstHeader_cons (.inr rfl), Phase.next, if_neg hlenc]
  dsimp only
  rw [firstHeader, if_neg hnumc, hnum]

theorem firstHeader_text_of_ne {ph : Phase} (hph : ph.BeforeSeq) (h : ph ≠ .start) :
    firstHeader ph (p.text n) = some .early := by
  cases ph with
  | start => exact absurd rfl h
  | len => rfl
  | seq sum length => rfl
  | _ => exact hph.elim

end Skipping

end UBoot.Serial
