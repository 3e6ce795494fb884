import UBoot.Serial.Kermit

/-!
# Packets that the receiver does not take

Which packets `k_recv` reads from a row of characters depends on the characters only. As long as
none of them is taken, the data behind the checkpoint stay as they are, and so does the checkpoint
once a sequence number or an error was read.
-/

namespace UBoot.Serial

open UBoot.Common List

/-! ### Framing -/

variable {p : Phase}

section Framing

/-- What becomes of some characters. -/
inductive Framed where
  /-- `k_recv` waits for more -/
  | waits (phase : Phase)
  /-- a packet was good -/
  | packet
  /-- `k_recv` returned at a Control-C -/
  | aborted
deriving DecidableEq

/-- What becomes of some characters, up to the first good packet. -/
def frame : Phase → List UInt8 → Framed
  | p, [] => .waits p
  | p, c :: chars =>
    match p.next c with
    | .goes p => frame p chars
    | .error => frame .start chars
    | .packet => .packet
    | .aborted => .aborted

theorem frame_append {p' : Phase} {cs : List UInt8} (h : frame p cs = .waits p') (ds : List UInt8) :
    frame p (cs ++ ds) = frame p' ds := by
  induction cs generalizing p with
  | nil =>
    cases h
    rfl
  | cons c cs ih =>
    rw [cons_append, frame]
    rw [frame] at h
    split at h
    · exact ih h
    · exact ih h
    · cases h
    · cases h

/-- The header of a packet. -/
inductive Header where
  /-- an error in front of the sequence number -/
  | early
  /-- a sequence number -/
  | number (n : ℕ)
deriving DecidableEq

/-- The first header in some characters, for a receiver that waits in front of a sequence number. -/
def firstHeader : Phase → List UInt8 → Option Header
  | _, [] => none
  | .seq _ _, c :: _ => some (if IsControl c then .early else .number (untochar c))
  | p, c :: chars =>
    match p.next c with
    | .goes p => firstHeader p chars
    | .error => some .early
    | _ => none

/-- The receiver waits in front of a sequence number. -/
def Phase.BeforeSeq : Phase → Prop
  | .start | .len | .seq _ _ => True
  | _ => False

theorem firstHeader_cons (hp : p = .start ∨ p = .len) (c : UInt8) (chars : List UInt8) :
    firstHeader p (c :: chars) = match p.next c with
      | .goes p => firstHeader p chars
      | .error => some .early
      | _ => none := by
  rcases hp with rfl | rfl <;> rfl

theorem firstHeader_append_of_some {cs : List UInt8} {r : Header} (h : firstHeader p cs = some r)
    (ds : List UInt8) : firstHeader p (cs ++ ds) = some r := by
  induction cs generalizing p with
  | nil => exact absurd h (by simp [firstHeader])
  | cons c cs ih =>
    cases p <;> simp only [cons_append, firstHeader] at h ⊢
    case seq => exact h
    all_goals
      split at h
      · exact ih h
      · exact h
      · cases h

theorem firstHeader_append {p' : Phase} {cs : List UInt8} (hp : p.BeforeSeq)
    (hw : frame p cs = .waits p') (h : firstHeader p cs = none) (ds : List UInt8) :
    p'.BeforeSeq ∧ firstHeader p (cs ++ ds) = firstHeader p' ds := by
  induction cs generalizing p with
  | nil =>
    cases hw
    exact ⟨hp, rfl⟩
  | cons c cs ih =>
    cases p <;> simp only [Phase.BeforeSeq] at hp
    case seq => exact absurd h (by simp [firstHeader])
    all_goals
      simp only [cons_append, firstHeader, frame, Phase.next] at h hw ⊢
      split_ifs at h hw ⊢
      all_goals exact ih trivial hw h

end Framing

/-! ### The data -/

section Data

/-- The bytes that a quoted text stands for, and whether a quote is left over. -/
def decode (q : UInt8) : Bool → List UInt8 → List UInt8 × Bool
  | e, [] => ([], e)
  | true, c :: text => (ktrans c :: (decode q false text).1, (decode q false text).2)
  | false, c :: text =>
    if c = q then decode q true text
    else (c :: (decode q false text).1, (decode q false text).2)

theorem decode_append (q : UInt8) (e : Bool) (v w : List UInt8) :
    decode q e (v ++ w) = ((decode q e v).1 ++ (decode q (decode q e v).2 w).1,
    (decode q (decode q e v).2 w).2) := by
  induction v generalizing e with
  | nil => rfl
  | cons c v ih =>
    cases e with
    | true => simp only [cons_append, decode, ih]
    | false =>
      simp only [cons_append, decode]
      split
      · exact ih true
      · simp only [ih, cons_append]

variable {q : UInt8} {start : ℕ} {text : List UInt8}

/-- A position of the receiver behind a text. -/
structure At (q : UInt8) (start : ℕ) (text : List UInt8) (pos : DataPos) (mem : ℕ → UInt8) :
    Prop where
  escape : pos.escape = (decode q false text).2
  addr : pos.addr = start + (decode q false text).1.length
  bytes : Contains mem start (decode q false text).1

theorem At.congr {pos : DataPos} {mem mem' : ℕ → UInt8} (h : At q start text pos mem)
    (hmem : ∀ i < pos.addr, mem' i = mem i) : At q start text pos mem' := by
  refine ⟨h.escape, h.addr, h.bytes.congr fun i _ hi => hmem i ?_⟩
  rw [h.addr]
  exact hi

/-- Data are written from the position on. -/
theorem KRecv.kDataChar_eq (s : KRecv) (c : UInt8) :
    ∃ mem pos, s.kDataChar c = { s with mem, pos } ∧ s.pos.addr ≤ pos.addr ∧ ∀ i < s.pos.addr,
    mem i = s.mem i := by
  have hbelow : ∀ (b : UInt8), ∀ i < s.pos.addr, Function.update s.mem s.pos.addr b i = s.mem i :=
    fun b i hi => Function.update_of_ne (by omega) b s.mem
  rw [KRecv.kDataChar]
  split
  · exact ⟨_, _, rfl, Nat.le_succ _, hbelow _⟩
  · split
    · exact ⟨_, _, rfl, Nat.le_refl _, fun _ _ => rfl⟩
    · exact ⟨_, _, rfl, Nat.le_succ _, hbelow _⟩

/-- A character behind the sequence number changes nothing but data from the position on, the
position, the type and the parameters. -/
theorem KRecv.char_eq {s : KRecv} (hphase : ¬ s.phase.BeforeSeq) (c : UInt8) :
    ∃ kState mem pos sendParms, s.char c = { s with kState, mem, pos, sendParms } ∧
      s.pos.addr ≤ pos.addr ∧ ∀ i < s.pos.addr, mem i = s.mem i := by
  rw [KRecv.char]
  split
  case h_1 hs => exact absurd (hs ▸ trivial) hphase
  case h_2 => exact ⟨_, _, _, _, rfl, Nat.le_refl _, fun _ _ => rfl⟩
  case h_3 =>
    split
    · obtain ⟨mem, pos, heq, hle, hmem⟩ := s.kDataChar_eq c
      exact ⟨_, mem, pos, _, heq, hle, hmem⟩
    split
    · rw [KRecv.sendParm]
      split <;> exact ⟨_, _, _, _, rfl, Nat.le_refl _, fun _ _ => rfl⟩
    · exact ⟨_, _, _, _, rfl, Nat.le_refl _, fun _ _ => rfl⟩
  case h_4 => exact ⟨_, _, _, _, rfl, Nat.le_refl _, fun _ _ => rfl⟩

end Data

/-! ### Receiving without taking -/

section Receiving

variable {q : UInt8} {start : ℕ} {text : List UInt8} {s : KRecv}

/-- Position and checkpoint are behind the same text, unless characters of an unfinished packet
follow. -/
structure Settled (q : UInt8) (start : ℕ) (text : List UInt8) (s : KRecv) : Prop where
  saved : At q start text s.posSaved s.mem
  below : s.posSaved.addr ≤ s.pos.addr
  early : s.phase.BeforeSeq → s.pos = s.posSaved ∧ s.sendParms = []
  live : s.returned = none

/-- A packet with number `n` was taken: the position is behind it, the checkpoint in front. -/
structure Ahead (q : UInt8) (start : ℕ) (text text' : List UInt8) (n : ℕ) (s : KRecv) : Prop where
  saved : At q start text s.posSaved s.mem
  here : At q start text' s.pos s.mem
  last : s.lastN = some n
  waits : s.phase.BeforeSeq
  parms : s.sendParms = []
  live : s.returned = none

variable {c : UInt8} {chars text' : List UInt8}

theorem KRecv.getc_of_goes (hlive : s.returned = none) (h : s.phase.next c = .goes p) :
    s.getc start c = ({ s.char c with phase := p }, none) := by
  rw [KRecv.getc, if_neg (by simp [hlive]), h]

theorem KRecv.getc_of_error (hlive : s.returned = none) (h : s.phase.next c = .error) :
    s.getc start c = s.packetError := by
  rw [KRecv.getc, if_neg (by simp [hlive]), h]

/-- Behind the sequence number comes no place in front of one. -/
theorem not_beforeSeq_of_goes {p' : Phase} (hp : ¬ p.BeforeSeq) (h : p.next c = .goes p') :
    ¬ p'.BeforeSeq := by
  have hbody : ∀ sum length, ¬ (body sum length).BeforeSeq := by
    intro sum length
    rw [body]
    split <;> exact id
  cases p <;> simp only [Phase.next] at h
  case start | len | seq => exact absurd trivial hp
  all_goals
    split_ifs at h
    all_goals
      cases h
      first
        | exact hbody _ _
        | exact id

/-- An error goes back to the checkpoint. -/
theorem settled_packetError (hsaved : At q start text s.posSaved s.mem)
    (hlive : s.returned = none) : Settled q start text s.packetError.1 :=
  ⟨hsaved, Nat.le_refl _, fun _ => ⟨rfl, rfl⟩, hlive⟩

theorem Settled.getc (h : Settled q start text s) (hpacket : s.phase.next c ≠ .packet)
    (habort : s.phase.next c ≠ .aborted) : Settled q start text (s.getc start c).1 := by
  cases hnext : s.phase.next c with
  | packet => exact absurd hnext hpacket
  | aborted => exact absurd hnext habort
  | error =>
    rw [KRecv.getc_of_error h.live hnext]
    exact settled_packetError h.saved h.live
  | goes p =>
    rw [KRecv.getc_of_goes h.live hnext]
    by_cases hphase : s.phase.BeforeSeq
    · obtain ⟨hpos, hparms⟩ := h.early hphase
      rw [KRecv.char]
      split
      · -- the sequence number: checkpoint and position are the same already
        rw [KRecv.checkpoint]
        split
        · exact ⟨h.saved, Nat.le_refl _, fun _ => ⟨rfl, hparms⟩, h.live⟩
        · exact ⟨hpos ▸ h.saved, Nat.le_refl _, fun _ => ⟨rfl, hparms⟩, h.live⟩
      · rename_i hs
        rw [hs] at hphase
        exact hphase.elim
      · rename_i hs
        rw [hs] at hphase
        exact hphase.elim
      · exact ⟨h.saved, h.below, fun _ => ⟨hpos, hparms⟩, h.live⟩
    · obtain ⟨kState, mem, pos, sendParms, heq, hle, hmem⟩ := KRecv.char_eq hphase c
      rw [heq]
      exact ⟨h.saved.congr fun i hi => hmem i (Nat.lt_of_lt_of_le hi h.below),
        Nat.le_trans h.below hle, fun hp => absurd hp (not_beforeSeq_of_goes hphase hnext), h.live⟩

/-- The receiver goes on with the rest of the characters. -/
theorem frame_getc (start : ℕ) (hlive : s.returned = none)
    (h : frame s.phase (c :: chars) = .waits p) :
    (s.phase.next c ≠ .packet ∧ s.phase.next c ≠ .aborted) ∧ frame (s.getc start c).1.phase
      chars = .waits p := by
  rw [frame] at h
  cases hnext : s.phase.next c with
  | goes p' =>
    rw [hnext] at h
    rw [KRecv.getc_of_goes hlive hnext]
    exact ⟨⟨by simp, by simp⟩, h⟩
  | error =>
    rw [hnext] at h
    rw [KRecv.getc_of_error hlive hnext]
    exact ⟨⟨by simp, by simp⟩, h⟩
  | packet | aborted => exact absurd h (by simp [hnext])

/-- Characters without a good packet change nothing that is behind the checkpoint. -/
theorem Settled.recv (h : Settled q start text s) (hframe : frame s.phase chars = .waits p) :
    Settled q start text (s.recv start chars) ∧ (s.recv start chars).phase = p := by
  induction chars generalizing s with
  | nil =>
    cases hframe
    exact ⟨h, rfl⟩
  | cons c chars ih =>
    obtain ⟨⟨hpacket, habort⟩, hrest⟩ := frame_getc start h.live hframe
    exact ih (h.getc hpacket habort) hrest

/-- A sequence number moves the checkpoint, or goes back to it. -/
theorem Ahead.getc_number {n sum length : ℕ} (h : Ahead q start text text' n s)
    (hs : s.phase = .seq sum length) (hc : ¬ IsControl c) :
    Settled q start (if untochar c = n then text else text') (s.getc start c).1 := by
  have hnext : s.phase.next c = .goes (.type (sum + c.toNat) length) := by
    rw [hs, Phase.next, if_neg hc]
  have hchar : s.char c = s.checkpoint (untochar c) := by
    rw [KRecv.char, hs]
  rw [KRecv.getc_of_goes h.live hnext, hchar, KRecv.checkpoint, h.last]
  by_cases hn : untochar c = n
  · rw [if_pos hn, if_pos (by rw [hn])]
    exact ⟨h.saved, Nat.le_refl _, fun hp => hp.elim, h.live⟩
  · rw [if_neg hn, if_neg fun heq => hn (Option.some.inj heq).symm]
    exact ⟨h.here, Nat.le_refl _, fun hp => hp.elim, h.live⟩

/-- In front of a length or a start, the receiver only goes on waiting. -/
theorem Ahead.getc_goes {n : ℕ} (h : Ahead q start text text' n s)
    (hnext : s.phase.next c = .goes p) (hs : s.phase = .start ∨ s.phase = .len) :
    Ahead q start text text' n (s.getc start c).1 ∧ (s.getc start c).1.phase = p := by
  have hchar : s.char c = s := by
    rw [KRecv.char]
    rcases hs with hs | hs <;> rw [hs]
  have hp : p.BeforeSeq := by
    rcases hs with hs | hs <;> rw [hs] at hnext <;> simp only [Phase.next] at hnext <;>
      split_ifs at hnext <;> cases hnext <;> trivial
  rw [KRecv.getc_of_goes h.live hnext, hchar]
  exact ⟨⟨h.saved, h.here, h.last, hp, h.parms, h.live⟩, rfl⟩

/-- What the state is for a header that was read. -/
def AfterHeader (q : UInt8) (start : ℕ) (text text' : List UInt8) (n : ℕ) :
    Option Header → KRecv → Prop
  | none => Ahead q start text text' n
  | some .early => Settled q start text
  | some (.number m) => Settled q start (if m = n then text else text')

/-- The first header decides whether the packet that was taken stays. -/
theorem Ahead.recv {n : ℕ} (h : Ahead q start text text' n s)
    (hframe : frame s.phase chars = .waits p) :
    AfterHeader q start text text' n (firstHeader s.phase chars) (s.recv start chars) ∧
      (s.recv start chars).phase = p := by
  induction chars generalizing s with
  | nil =>
    cases hframe
    exact ⟨h, rfl⟩
  | cons c chars ih =>
    obtain ⟨⟨hpacket, habort⟩, hrest⟩ := frame_getc start h.live hframe
    rw [show s.recv start (c :: chars) = (s.getc start c).1.recv start chars from rfl]
    have herror : s.phase.next c = .error → Settled q start text (s.getc start c).1 := by
      intro hnext
      rw [KRecv.getc_of_error h.live hnext]
      exact settled_packetError h.saved h.live
    have hsimple : s.phase = .start ∨ s.phase = .len →
        AfterHeader q start text text' n (firstHeader s.phase (c :: chars))
          ((s.getc start c).1.recv start chars) ∧ ((s.getc start c).1.recv start chars).phase = p := by
      intro hs
      rw [firstHeader_cons hs c chars]
      cases hnext : s.phase.next c with
      | packet => exact absurd hnext hpacket
      | aborted => exact absurd hnext habort
      | error => exact Settled.recv (herror hnext) hrest
      | goes p' =>
        obtain ⟨hahead, hp'⟩ := h.getc_goes hnext hs
        rw [← hp']
        exact ih hahead hrest
    have hwaits := h.waits
    cases hs : s.phase with
    | start => exact hs ▸ hsimple (.inl hs)
    | len => exact hs ▸ hsimple (.inr hs)
    | seq sum length =>
      rw [firstHeader]
      split
      · rename_i hc
        exact Settled.recv (herror (by rw [hs, Phase.next, if_pos hc])) hrest
      · rename_i hc
        exact Settled.recv (h.getc_number hs hc) hrest
    | _ =>
      rw [hs] at hwaits
      exact hwaits.elim

theorem KRecv.char_his (s : KRecv) (c : UInt8) : (s.char c).his = s.his ∧
    (s.char c).returned = s.returned := by
  by_cases hphase : s.phase.BeforeSeq
  · rw [KRecv.char]
    split
    · rw [KRecv.checkpoint]
      split <;> exact ⟨rfl, rfl⟩
    · exact ⟨rfl, rfl⟩
    · rename_i hs
      rw [hs] at hphase
      exact hphase.elim
    · exact ⟨rfl, rfl⟩
  · obtain ⟨kState, mem, pos, sendParms, heq, -, -⟩ := KRecv.char_eq hphase c
    rw [heq]
    exact ⟨rfl, rfl⟩

/-- Nothing is read after the return. -/
theorem KRecv.recv_of_returned (h : s.returned ≠ none) (chars : List UInt8) :
    s.recv start chars = s ∧ s.replies start chars = [] := by
  induction chars with
  | nil => exact ⟨rfl, rfl⟩
  | cons c chars ih =>
    have hgetc : s.getc start c = (s, none) := by rw [KRecv.getc, if_pos h]
    rw [KRecv.recv, KRecv.replies, hgetc]
    exact ih

/-- Without a good packet nothing is acknowledged. A Control-C between packets ends the download. -/
theorem KRecv.recv_quiet (hlive : s.returned = none) (hframe : frame s.phase chars ≠ .packet) :
    ((s.recv start chars).his = s.his ∧
      (frame s.phase chars = .aborted → (s.recv start chars).returned = some 0)) ∧
      ∀ r ∈ s.replies start chars, r.type = nackType := by
  induction chars generalizing s with
  | nil => exact ⟨⟨rfl, by simp [frame]⟩, by simp [KRecv.replies]⟩
  | cons c chars ih =>
    rw [frame] at hframe ⊢
    rw [KRecv.recv, KRecv.replies]
    cases hnext : s.phase.next c with
    | goes p =>
      obtain ⟨hhis, hreturned⟩ := s.char_his c
      rw [hnext] at hframe
      rw [KRecv.getc_of_goes hlive hnext, ← hhis]
      exact ih (hreturned.trans hlive) hframe
    | error =>
      rw [hnext] at hframe
      rw [KRecv.getc_of_error hlive hnext]
      obtain ⟨hends, hreplies⟩ := ih (s := s.packetError.1) hlive hframe
      refine ⟨hends, fun r hr => ?_⟩
      rcases mem_cons.mp hr with rfl | hr
      · rfl
      · exact hreplies r hr
    | packet => exact absurd (by rw [hnext]) hframe
    | aborted =>
      have hdone : KRecv.recv start { s with returned := some 0 } chars = _ ∧
        KRecv.replies start _ chars = [] :=
        KRecv.recv_of_returned (by simp) chars
      rw [KRecv.getc, if_neg (by simp [hlive]), hnext]
      rw [hdone.1, hdone.2]
      exact ⟨⟨rfl, fun _ => rfl⟩, by simp⟩

end Receiving

end UBoot.Serial
