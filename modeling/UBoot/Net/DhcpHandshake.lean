import UBoot.Net.Bootp

/-!
# The handshake with a server

A server sends an offer and an acknowledgement in the format of the wire. The client reads them
through a structure whose fields are elsewhere: it takes the seconds, the flags and the client
address for the identifier, the relay's address for its own, and the options to begin eight bytes
further on.
-/

namespace UBoot.Net

open UBoot.Common List

/-! ### Packets on the wire -/

/-- The options of a packet, with their data. A pad is one byte, and there has to be an end. -/
def wireOptions : ℕ → List UInt8 → Option (List (UInt8 × List UInt8))
  | 0, _ => none
  | _ + 1, [] => none
  | fuel + 1, c :: l =>
    if c = 255 then some []
    else if c = 0 then wireOptions fuel l
    else
      match l with
      | [] => none
      | n :: l =>
        if l.length < n.toNat then none
        else (wireOptions fuel (l.drop n.toNat)).map ((c, l.take n.toNat) :: ·)

/-- A packet of a server: identifier, message type and options. -/
structure IsReply (xid : List UInt8) (type : UInt8) (options : List (UInt8 × List UInt8))
    (p : Received) : Prop where
  ports : p.dest = 68 ∧ p.src = 67
  op : p.buf 0 = 2
  htype : p.buf 1 = 1
  hlen : p.buf 2 = 6
  xid_eq : load p.buf 4 4 = xid
  cookie : load p.buf 236 4 = [99, 130, 83, 99]
  length : 240 ≤ p.len ∧ p.len ≤ p.room
  options_eq : wireOptions p.len (load p.buf 240 (p.len - 240)) = some options
  type_mem : (53, [type]) ∈ options
  once : options.Pairwise (·.1 ≠ ·.1)
  addresses : ∀ o ∈ options, o.1 = 1 ∨ o.1 = 3 ∨ o.1 = 54 → 4 ≤ o.2.length

/-- The variable for an option: subnet mask, router or server identifier. -/
def NetVars.stored (net : NetVars) (code : UInt8) : List UInt8 :=
  if code = 1 then net.netOurSubnetMask else if code = 3 then net.netOurGatewayIP else net.netDHCPServerIP

/-- The handshake as it should be: an offer, an acknowledgement with these options, and a packet
with another identifier that may come before or after the offer. -/
structure Completes (s : Dhcp) (offer ack other : Received) (options : List (UInt8 × List UInt8)) :
    Prop where
  completes : ∃ s₁ s₂ sent, dhcpHandler s offer = some (s₁, sent) ∧ s₁.state = .requesting ∧
    dhcpHandler s₁ ack = some (s₂, none) ∧ s₂.state = .bound ∧
    s₂.net.netOurIP = load ack.buf 16 4 ∧
    (∀ o ∈ options, o.1 = 1 ∨ o.1 = 3 ∨ o.1 = 54 → s₂.net.stored o.1 = o.2.take 4) ∧
    dhcpHandler s other = some (s, none) ∧ dhcpHandler s₁ other = some (s₁, none)

/-! ### What the client reads -/

section Reading

variable {p : Received} {ids : List ℕ}

/-- A packet passes the filter. -/
def Passes (ids : List ℕ) (p : Received) : Prop :=
  (p.dest = 68 ∧ p.src = 67) ∧ 248 ≤ p.len ∧ (p.buf 0 = 1 ∨ p.buf 0 = 2 ∨ p.buf 0 = 5 ∨ p.buf 0 = 6) ∧
    p.buf 1 = 1 ∧ p.buf 2 = 6 ∧ ofLe (load p.buf 8 8) ∈ ids

theorem bootpCheckPkt_eq_zero_iff : bootpCheckPkt ids p = 0 ↔ Passes ids p := by
  have hlen : bootpHdrSize - optFieldSize = 248 := rfl
  rw [bootpCheckPkt, Passes]
  split_ifs with h₁ h₂ h₃ h₄ h₅ h₆
  · exact iff_of_false (by decide) fun h => by omega
  · exact iff_of_false (by decide) fun h => by omega
  · exact iff_of_false (by decide) fun h => by
      rw [← not_or, ← not_or, ← not_or] at h₃
      exact h₃ h.2.2.1
  · exact iff_of_false (by decide) fun h => h₄ h.2.2.2.1
  · exact iff_of_false (by decide) fun h => h₅ h.2.2.2.2.1
  · refine iff_of_true rfl ⟨by omega, by omega, ?_, not_not.mp h₄, not_not.mp h₅, h₆⟩
    by_contra hd
    rw [not_or, not_or, not_or] at hd
    exact h₃ hd
  · exact iff_of_false (by decide) fun h => h₆ h.2.2.2.2.2

/-- A reply passes the filter if its length and its eight bytes behind the identifier do. -/
theorem IsReply.passes_iff {xid : List UInt8} {type : UInt8} {options : List (UInt8 × List UInt8)}
    (h : IsReply xid type options p) : Passes ids p ↔ 248 ≤ p.len ∧ ofLe (load p.buf 8 8) ∈ ids :=
  ⟨fun hp => ⟨hp.2.1, hp.2.2.2.2.2⟩, fun hp => ⟨h.ports, hp.1, .inr (.inl h.op), h.htype, h.hlen, hp.2⟩⟩

/-- The cookie has to be followed by four zeros. -/
theorem hasCookie_iff : HasCookie p ↔ load p.buf 244 8 = [99, 130, 83, 99, 0, 0, 0, 0] := by
  have hmagic : htonl bootpVendorMagic = ofLe [99, 130, 83, 99, 0, 0, 0, 0] := by decide
  have hread : netReadLong p.buf bpVend = ofLe (load p.buf 244 8) := rfl
  rw [HasCookie, hmagic, hread]
  constructor
  · intro h
    have hbytes := congrArg (leBytes 8) h
    have hload := leBytes_ofLe (load p.buf 244 8)
    rw [length_load] at hload
    rw [hload] at hbytes
    rw [hbytes]
    decide
  · intro h
    rw [h]

/-- The options that are walked over from a position on, each with its code and the position of its
data. Every option has a length byte, also a pad. -/
def walk (buf : ℕ → UInt8) (stop : ℕ) : ℕ → ℕ → List (UInt8 × ℕ)
  | 0, _ => []
  | fuel + 1, pos =>
    if pos < stop ∧ buf pos ≠ 255 then
      (buf pos, pos + 2) :: walk buf stop fuel (pos + (buf (pos + 1)).toNat + 2)
    else []

/-- The four bytes of the last option with a code, or the ones that were there before. -/
def lastOption (buf : ℕ → UInt8) (code : UInt8) (found : List (UInt8 × ℕ)) (old : List UInt8) :
    List UInt8 :=
  found.foldl (fun v o => if o.1 = code then load buf o.2 4 else v) old

variable {buf buf' : ℕ → UInt8} {code : UInt8} {stop fuel pos i : ℕ} (h : ∀ i, pos ≤ i → buf' i = buf i)
include h

theorem walk_congr : walk buf' stop fuel pos = walk buf stop fuel pos := by
  induction fuel generalizing pos with
  | zero => rfl
  | succ fuel ih =>
    rw [walk, walk, h pos le_rfl, h (pos + 1) (by omega), ih fun i hi => h i (by omega)]

theorem load_congr {n : ℕ} : load buf' pos n = load buf pos n := map_congr_left fun i _ => h
    (pos + i) (by omega)

theorem lastOption_congr {old : List UInt8} :
    lastOption buf' code (walk buf stop fuel pos) old = lastOption buf code (walk buf stop fuel pos)
    old := by
  induction fuel generalizing pos old with
  | zero => rfl
  | succ fuel ih =>
    rw [walk]
    split
    · rw [lastOption, foldl_cons, load_congr fun i hi => h i (by omega)]
      exact ih fun i hi => h i (by omega)
    · rfl

omit h

/-- One option: the variables of interest, and the bytes of the vendor field. -/
theorem dhcpOption_spec (popt : ℕ) (net : NetVars) (buf : ℕ → UInt8)
    (hcode : code = 1 ∨ code = 3 ∨ code = 54) : (dhcpOption popt (net, buf)).1.stored code =
      (if buf popt = code then load buf (popt + 2) 4 else net.stored code) ∧ ∀ i, bpVend ≤ i →
      (dhcpOption popt (net, buf)).2 i = buf i := by
  have hother : (buf popt).toNat ≠ 1 → (buf popt).toNat ≠ 3 → (buf popt).toNat ≠ 54 →
    ¬ buf popt = code := by
    rintro h₁ h₃ h₅₄ rfl
    rcases hcode with h | h | h
    · exact h₁ (congrArg UInt8.toNat h)
    · exact h₃ (congrArg UInt8.toNat h)
    · exact h₅₄ (congrArg UInt8.toNat h)
  rw [dhcpOption]
  split
  case h_1 h | h_2 h | h_7 h =>
    have hbyte := congrArg UInt8.ofNat h
    rw [UInt8.ofNat_toNat] at hbyte
    refine ⟨?_, fun _ _ => rfl⟩
    rw [hbyte]
    rcases hcode with rfl | rfl | rfl <;> rfl
  case h_8 h =>
    -- a boot file is copied into the packet, in front of the vendor field
    rw [if_neg (hother (by omega) (by omega) (by omega))]
    split
    · refine ⟨rfl, fun i hi => store_of_outside _ _ _ (.inr ?_)⟩
      have hsize : truncateSz 128 (buf (popt + 1)).toNat ≤ 127 := by
        rw [truncateSz]
        split <;> omega
      rw [length_append, length_load]
      simp only [bpFile, bpVend, length_singleton] at hi ⊢
      omega
    · exact ⟨rfl, fun _ _ => rfl⟩
  case h_9 h₁ h₃ _ _ _ _ h₅₄ _ => exact ⟨(if_neg (hother h₁ h₃ h₅₄)).symm, fun _ _ => rfl⟩
  all_goals
    rw [if_neg (hother (by omega) (by omega) (by omega))]
    exact ⟨by simp only [NetVars.stored], fun _ _ => rfl⟩

theorem dhcpOptionsLoop_stored (hcode : code = 1 ∨ code = 3 ∨ code = 54) (fuel popt : ℕ)
    (net : NetVars) (buf : ℕ → UInt8) (hpopt : bpVend ≤ popt) :
    (dhcpOptionsLoop stop fuel popt (net, buf)).1.stored code =
      lastOption buf code (walk buf stop fuel popt) (net.stored code) := by
  induction fuel generalizing popt net buf with
  | zero => rfl
  | succ fuel ih =>
    rw [dhcpOptionsLoop, walk]
    split
    · obtain ⟨hstored, hsame⟩ := dhcpOption_spec popt net buf hcode
      have hfrom : ∀ i, popt ≤ i → (dhcpOption popt (net, buf)).2 i = buf i :=
        fun i hi => hsame i (hpopt.trans hi)
      have hnext := ih (popt + (buf (popt + 1)).toNat + 2) (dhcpOption popt (net, buf)).1
        (dhcpOption popt (net, buf)).2 (by omega)
      rw [walk_congr fun i hi => hfrom i (by omega), lastOption_congr fun i hi => hfrom i
        (by omega), hstored] at hnext
      exact hnext
    · rfl

/-- The packet is changed in the boot file only. -/
theorem dhcpOptionsLoop_buf (stop fuel popt : ℕ) (net : NetVars) (buf : ℕ → UInt8)
    (hi : i < bpFile) : (dhcpOptionsLoop stop fuel popt (net, buf)).2 i = buf i := by
  induction fuel generalizing popt net buf with
  | zero => rfl
  | succ fuel ih =>
    rw [dhcpOptionsLoop]
    split
    · rw [ih]
      rw [dhcpOption]
      split
      case h_8 =>
        split
        · exact store_of_outside _ _ _ (.inl hi)
        · rfl
      all_goals rfl
    · rfl

/-- The message type is that of the first option of type 53 that is walked over. -/
theorem messageTypeLoop_eq_five_iff (fuel pos : ℕ) :
    messageTypeLoop p fuel pos = some 5 ↔
      ∃ o, (walk p.buf p.room fuel pos).find? (·.1 = 53) = some o ∧ p.buf o.2 = 5 := by
  induction fuel generalizing pos with
  | zero => simp [messageTypeLoop, walk]
  | succ fuel ih =>
    rw [messageTypeLoop, walk]
    by_cases hroom : p.room ≤ pos
    · simp [hroom.not_gt]
    by_cases hend : p.buf pos = 255
    · simp [hend]
    have hmore : pos < p.room ∧ p.buf pos ≠ 255 := ⟨not_le.mp hroom, hend⟩
    rw [if_neg hroom, if_neg hend, if_pos hmore, find?_cons]
    by_cases htype : p.buf pos = 53
    · have hfive : (p.buf (pos + 2)).toNat = 5 ↔ p.buf (pos + 2) = 5 := UInt8.toNat_inj (b := 5)
      simp only [htype, if_true, decide_true, Option.some.injEq, exists_eq_left']
      rw [← hfive]
      exact Int.ofNat_inj
    · simp only [htype]
      exact ih _

/-- The four bytes that are taken from a packet for an option, if there are any. -/
def readOption (p : Received) (code : UInt8) (old : List UInt8) : List UInt8 :=
  if load p.buf 244 8 = [99, 130, 83, 99, 0, 0, 0, 0] then
    lastOption p.buf code (walk p.buf 808 560 248) old
  else old

variable (net : NetVars)

theorem processOptions_stored (hcode : code = 1 ∨ code = 3 ∨ code = 54) :
    (processOptions net p).1.stored code = readOption p code (net.stored code) := by
  rw [processOptions, readOption]
  by_cases hcookie : HasCookie p
  · rw [if_pos hcookie, if_pos (hasCookie_iff.mp hcookie)]
    exact dhcpOptionsLoop_stored hcode _ _ _ _ (Nat.le_add_right _ _)
  · rw [if_neg hcookie, if_neg fun h => hcookie (hasCookie_iff.mpr h)]

theorem processOptions_buf (hi : i < bpFile) : (processOptions net p).2 i = p.buf i := by
  rw [processOptions]
  split
  · exact dhcpOptionsLoop_buf _ _ _ _ _ hi
  · rfl

/-- The address that is taken from a packet is the one at the relay's place. -/
theorem bootpCopyNetParams_netOurIP (h : ∀ i < bpFile, buf i = p.buf i) :
    (bootpCopyNetParams net { p with buf }).netOurIP = load p.buf 24 4 := by
  refine map_congr_left fun i hi => h _ ?_
  have hlt := mem_range.mp hi
  simp only [bpYiaddr, bpFile]
  omega

/-- The rest of the packet does not concern the options. -/
theorem bootpCopyNetParams_stored (code : UInt8) :
    (bootpCopyNetParams net p).stored code = net.stored code := rfl

end Reading

/-! ### The two steps -/

section Steps

variable {s : Dhcp} {p : Received}

theorem dhcpHandler_of_not_passes (h : ¬ Passes s.ids p) : dhcpHandler s p = some (s, none) := by
  rw [dhcpHandler, if_pos fun hcheck => h (bootpCheckPkt_eq_zero_iff.mp hcheck)]

/-- Whatever passes the filter is taken for an offer. -/
theorem dhcpHandler_selecting (hs : s.state = .selecting) (h : Passes s.ids p) :
    ∃ sent, dhcpHandler s p =
      some ({ s with state := .requesting, net := (processOptions s.net p).1 }, some sent) := by
  rw [dhcpHandler, if_neg (not_not.mpr (bootpCheckPkt_eq_zero_iff.mpr h)), hs]
  generalize processOptions s.net p = read
  exact ⟨_, rfl⟩

/-- The type is that of the first option of type 53, if the cookie is followed by zeros. -/
theorem dhcpMessageType_eq_five_iff :
    dhcpMessageType p = some 5 ↔ load p.buf 244 8 = [99, 130, 83, 99, 0, 0, 0, 0] ∧
      ∃ o, (walk p.buf p.room p.room 248).find? (·.1 = 53) = some o ∧ p.buf o.2 = 5 := by
  rw [dhcpMessageType, ← hasCookie_iff]
  by_cases hcookie : HasCookie p
  · rw [if_pos hcookie]
    exact (messageTypeLoop_eq_five_iff _ _).trans (and_iff_right hcookie).symm
  · rw [if_neg hcookie]
    exact iff_of_false (by decide) fun h => hcookie h.1

/-- An acknowledgement binds the client, and anything else leaves it where it is. -/
theorem dhcpHandler_requesting (hs : s.state = .requesting) (h : Passes s.ids p)
    (Q : NetVars → Prop) :
    (∃ s₂, dhcpHandler s p = some (s₂, none) ∧ s₂.state = .bound ∧ Q s₂.net) ↔ dhcpMessageType p = some 5 ∧
      Q (bootpCopyNetParams (processOptions s.net p).1 { p with buf := (processOptions s.net p).2 }) := by
  rw [dhcpHandler, if_neg (not_not.mpr (bootpCheckPkt_eq_zero_iff.mpr h)), hs]
  rcases htype : dhcpMessageType p with _ | type
  · simp
  by_cases hack : type = 5
  · simp only [hack, if_true, Option.some.injEq, Prod.mk.injEq, and_true, exists_eq_left']
  · simp only [hack, if_false, Option.some.injEq, Prod.mk.injEq, and_true, exists_eq_left',
      false_and, hs, reduceCtorEq]

end Steps

/-! ### The handshake -/

/-- What replies have to be like for the handshake with them to complete: the seconds, the flags and
the client address of both are one of the identifiers, the cookie is at the end of the boot file and
followed by zeros, from where on the options are found, and the relay's address is that of the
client. -/
structure Fits (s : Dhcp) (offer ack other : Received) (options : List (UInt8 × List UInt8)) :
    Prop where
  offer_id : 248 ≤ offer.len ∧ ofLe (load offer.buf 8 8) ∈ s.ids
  ack_id : 248 ≤ ack.len ∧ ofLe (load ack.buf 8 8) ∈ s.ids
  cookie : load ack.buf 244 8 = [99, 130, 83, 99, 0, 0, 0, 0]
  type : ∃ o, (walk ack.buf ack.room ack.room 248).find? (·.1 = 53) = some o ∧ ack.buf o.2 = 5
  address : load ack.buf 24 4 = load ack.buf 16 4
  stored : ∀ o ∈ options, o.1 = 1 ∨ o.1 = 3 ∨ o.1 = 54 →
    readOption ack o.1 (readOption offer o.1 (s.net.stored o.1)) = o.2.take 4
  other_id : ¬ Passes s.ids other

theorem completes_iff_of_selecting {s : Dhcp} (hs : s.state = .selecting) {xid : List UInt8}
    {offer ack : Received} (other : Received) {offered options : List (UInt8 × List UInt8)}
    (hoffer : IsReply xid 2 offered offer) (hack : IsReply xid 5 options ack) :
    Completes s offer ack other options ↔ Fits s offer ack other options := by
  -- the client after the offer, if it takes it
  let s₁ : Dhcp := { s with state := .requesting, net := (processOptions s.net offer).1 }
  have hstored : ∀ code : UInt8, code = 1 ∨ code = 3 ∨ code = 54 →
        (bootpCopyNetParams (processOptions s₁.net ack).1
        { ack with buf := (processOptions s₁.net ack).2 }).stored code =
      readOption ack code (readOption offer code (s.net.stored code)) := by
    intro code hcode
    rw [bootpCopyNetParams_stored, processOptions_stored _ hcode, processOptions_stored _ hcode]
  have hbound := fun hp => dhcpHandler_requesting (s := s₁) (p := ack) rfl hp fun net =>
    net.netOurIP = load ack.buf 16 4 ∧ ∀ o ∈ options, o.1 = 1 ∨ o.1 = 3 ∨ o.1 = 54 →
      net.stored o.1 = o.2.take 4
  constructor
  · rintro ⟨t₁, s₂, sent, hfirst, hrequesting, hsecond, hstate, haddress, hopts, hother, -⟩
    have hoffered : Passes s.ids offer := by
      by_contra hno
      rw [dhcpHandler_of_not_passes hno] at hfirst
      cases hfirst
      rw [hs] at hrequesting
      cases hrequesting
    obtain ⟨sent', hsent⟩ := dhcpHandler_selecting hs hoffered
    rw [hsent] at hfirst
    obtain ⟨rfl, -⟩ := Prod.mk.inj (Option.some.inj hfirst)
    have hacked : Passes s₁.ids ack := by
      by_contra hno
      rw [dhcpHandler_of_not_passes hno] at hsecond
      cases hsecond
      cases hstate
    obtain ⟨htype, hip, hread⟩ := (hbound hacked).mp ⟨s₂, hsecond, hstate, haddress, hopts⟩
    obtain ⟨hcookie, hfive⟩ := dhcpMessageType_eq_five_iff.mp htype
    refine ⟨hoffer.passes_iff.mp hoffered, hack.passes_iff.mp hacked, hcookie, hfive, ?_, ?_, ?_⟩
    · exact (bootpCopyNetParams_netOurIP _ fun i hi => processOptions_buf _ hi).symm.trans hip
    · intro o ho hcode
      exact (hstored o.1 hcode).symm.trans (hread o ho hcode)
    · intro hpass
      obtain ⟨sent'', htaken⟩ := dhcpHandler_selecting hs hpass
      rw [htaken] at hother
      exact Option.some_ne_none _ (Prod.mk.inj (Option.some.inj hother)).2
  · intro h
    obtain ⟨sent, hsent⟩ := dhcpHandler_selecting hs (hoffer.passes_iff.mpr h.offer_id)
    obtain ⟨s₂, hsecond, hstate, haddress, hopts⟩ := (hbound (hack.passes_iff.mpr h.ack_id)).mpr
      ⟨dhcpMessageType_eq_five_iff.mpr ⟨h.cookie, h.type⟩,
        (bootpCopyNetParams_netOurIP _ fun i hi => processOptions_buf _ hi).trans h.address,
        fun o ho hcode => (hstored o.1 hcode).trans (h.stored o ho hcode)⟩
    exact ⟨s₁, s₂, sent, hsent, rfl, hsecond, hstate, haddress, hopts,
      dhcpHandler_of_not_passes h.other_id, dhcpHandler_of_not_passes h.other_id⟩

/-- The identifier of a request is not where a server looks for it: there are zeros in every
request. -/
theorem load_bootpRequest (s : Dhcp) (ether : List UInt8) (timer : ℕ) (options : List UInt8) :
    load (bootpRequest s ether timer options).2 4 4 = [0, 0, 0, 0] := by
  have hzero : ∀ i, 4 ≤ i → i < 8 → (bootpRequest s ether timer options).2 i = 0 := by
    intro i hlo hhi
    rw [bootpRequest]
    dsimp only
    rw [store_of_outside _ bpId _ (.inl (by rw [bpId]; omega)), store_of_outside _ bpVend _
      (.inl (by rw [bpVend]; omega)),
      store_of_outside _ bpFile _ (.inl (by rw [bpFile]; omega)),
      store_of_outside _ bpChaddr _ (.inl (by rw [bpChaddr]; omega)),
      store_of_outside _ bpSecs _ (.inl (by rw [bpSecs]; omega)), store_of_outside _ 0 _
        (.inr (by simpa using hlo))]
  refine (map_congr_left fun i hi => hzero (4 + i) (by omega) ?_).trans (by decide)
  have hlt := mem_range.mp hi
  omega

/-- After a request, the handshake completes for the replies that fit, whichever identifier they
have in its place on the wire, and whatever the packet with another one is. -/
theorem completes_bootpRequest_iff (s₀ : Dhcp) (ether : List UInt8) (timer : ℕ)
    (sentOptions : List UInt8)
    {xid : List UInt8} {offer ack other : Received} {offered options : List (UInt8 × List UInt8)}
    (hoffer : IsReply xid 2 offered offer) (hack : IsReply xid 5 options ack)
    (_hother : load other.buf 4 4 ≠ xid) :
    Completes (bootpRequest s₀ ether timer sentOptions).1 offer ack other options ↔
      Fits (bootpRequest s₀ ether timer sentOptions).1 offer ack other options :=
  completes_iff_of_selecting rfl other hoffer hack

/-- A reply of a server at 192.168.1.1 that offers 192.168.1.50: the seconds, flags and client
address, the relay's address and the options. -/
def replyOf (middle relay options : List UInt8) : Received where
  buf := ofList ([2, 1, 6, 0] ++ [0, 0, 0, 0] ++ middle ++ [192, 168, 1, 50] ++ [192, 168, 1, 1] ++
    relay ++ List.replicate 208 0 ++ [99, 130, 83, 99] ++ options) 0
  room := 1472
  dest := 68
  src := 67
  len := 240 + options.length
  ether := [2, 0, 0, 0, 0, 1]

/-- The options of an ordinary reply: its type and the server. -/
def ordinaryOptions (type : UInt8) : List UInt8 := [53, 1, type, 54, 4, 192, 168, 1, 1, 255]

/-- A host name that has in it what the client takes for the options. -/
def doubledName (type : UInt8) : List UInt8 :=
  [97, 97, 99, 130, 83, 99, 0, 0, 0, 0] ++ ordinaryOptions type

/-- The same options, behind this host name. -/
def doubledOptions (type : UInt8) : List UInt8 :=
  [12, 20] ++ doubledName type ++ ordinaryOptions type

/-- A client at the start. -/
def startClient : Dhcp where
  state := .init
  ids := []
  net := ⟨[0, 0, 0, 0], [0, 0, 0, 0], [], [0, 0, 0, 0], [0, 0, 0, 0], [0, 0, 0, 0],
    [0, 0, 0, 0], [], [], [], 0⟩

theorem isReply_ordinary (type : UInt8) (h : type = 2 ∨ type = 5) :
    IsReply [0, 0, 0, 0] type [(53, [type]), (54, [192, 168, 1, 1])]
      (replyOf [0, 0, 0, 0, 0, 0, 0, 0] [0, 0, 0, 0] (ordinaryOptions type)) := by
  rcases h with rfl | rfl <;> constructor <;> decide +kernel

/-- Replies that complete the handshake have the identifier of the request in the place of the
seconds, the flags and the client address, and the options twice. -/
theorem completes_doubled :
    Completes (bootpRequest startClient [2, 0, 0, 0, 0, 7] 1000 []).1
      (replyOf [0, 0, 3, 239, 0, 0, 0, 0] [192, 168, 1, 50] (doubledOptions 2))
      (replyOf [0, 0, 3, 239, 0, 0, 0, 0] [192, 168, 1, 50] (doubledOptions 5))
      { replyOf [0, 0, 0, 0, 0, 0, 0, 0] [0, 0, 0, 0] (ordinaryOptions 5) with
        buf := store (replyOf [0, 0, 0, 0, 0, 0, 0, 0] [0, 0, 0, 0] (ordinaryOptions 5)).buf 4
          [1, 2, 3, 4] }
      [(12, doubledName 5), (53, [5]), (54, [192, 168, 1, 1])] := by
  have hreply : ∀ type : UInt8, type = 2 ∨ type = 5 →
      IsReply [0, 0, 0, 0] type [(12, doubledName type), (53, [type]), (54, [192, 168, 1, 1])]
        (replyOf [0, 0, 3, 239, 0, 0, 0, 0] [192, 168, 1, 50] (doubledOptions type)) := by
    rintro type (rfl | rfl) <;> constructor <;> decide +kernel
  refine (completes_bootpRequest_iff startClient [2, 0, 0, 0, 0, 7] 1000 [] (hreply 2 (.inl rfl))
    (hreply 5 (.inr rfl)) (by decide +kernel)).mpr ?_
  exact ⟨by decide +kernel, by decide +kernel, by decide +kernel,
    ⟨(53, 254), by decide +kernel, by decide +kernel⟩, by decide +kernel, by decide +kernel,
    fun h => absurd h.2.2.2.2.2 (by decide +kernel)⟩

/-- The handshake with an ordinary server does not complete: its offer is not taken. -/
theorem not_completes_ordinary :
    let offer := replyOf [0, 0, 0, 0, 0, 0, 0, 0] [0, 0, 0, 0] (ordinaryOptions 2)
    let ack := replyOf [0, 0, 0, 0, 0, 0, 0, 0] [0, 0, 0, 0] (ordinaryOptions 5)
    let other := { ack with buf := store ack.buf 4 [1, 2, 3, 4] }
    IsReply [0, 0, 0, 0] 2 [(53, [2]), (54, [192, 168, 1, 1])] offer ∧
      IsReply [0, 0, 0, 0] 5 [(53, [5]), (54, [192, 168, 1, 1])] ack ∧
      load (bootpRequest startClient [2, 0, 0, 0, 0, 7] 1000 []).2 4 4 = [0, 0, 0, 0] ∧
      load other.buf 4 4 ≠ [0, 0, 0, 0] ∧
      ¬ Completes (bootpRequest startClient [2, 0, 0, 0, 0, 7] 1000 []).1 offer ack other
        [(53, [5]), (54, [192, 168, 1, 1])] := by
  refine ⟨isReply_ordinary 2 (.inl rfl), isReply_ordinary 5 (.inr rfl), load_bootpRequest _ _ _
    _, by decide +kernel, ?_⟩
  rw [completes_iff_of_selecting rfl _ (isReply_ordinary 2 (.inl rfl)) (isReply_ordinary 5 (.inr rfl))]
  exact fun h => absurd h.offer_id.2 (by decide +kernel)

end UBoot.Net
