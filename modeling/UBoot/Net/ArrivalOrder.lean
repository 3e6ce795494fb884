import UBoot.Net.Reassembly

/-!
# Arrival orders

Reassembly over a whole sequence of arrivals. The runs of missing fragments are tracked from one
arrival to the next; the one arrival that breaks this is described on the sequence alone, and a
datagram is reassembled for all contents exactly if no arrival of the sequence is of that kind.
-/

namespace UBoot.Net

open UBoot.Common List

variable {d : Datagram} {l l₁ l₂ : List (Span ℕ)} {r : Span ℕ} {got : Set ℕ} {s : Defrag}
  {i j : ℕ} {a n : ℕ} {mem : ℕ → UInt8} {sizes : List ℕ}

/-! ### Which hole a fragment meets -/

/-- A separated list below `n` has at most `n` spans. -/
theorem length_le_of_separated (hsep : Separated l) (h : ∀ r ∈ l, a ≤ r.lo ∧ r.lo < n) :
    l.length ≤ n - a := by
  induction l generalizing a with
  | nil => exact Nat.zero_le _
  | cons r l ih =>
    have hr := h r mem_cons_self
    have hne := hsep.nonempty r mem_cons_self
    have hl := ih (a := a + 1) (hsep.sublist (sublist_cons_self r l)) fun q hq => by
      have hgap := (pairwise_cons.mp hsep.gaps).1 q hq
      exact ⟨by omega, (h q (mem_cons_of_mem r hq)).2⟩
    rw [length_cons]
    omega

/-- The test for "no overlap" says that the fragment is in front of the run. -/
theorem no_overlap_iff (hj : j < d.count) (hr : i < d.count) :
    blockOf d.sizes j + ((d.bytes j).length + 7) / 8 ≤ blockOf d.sizes i ↔ j < i := by
  have hlen := Datagram.length_sizes (d := d)
  have hpos := d.cutOk.startOf_lt (Nat.lt_succ_self j) (by omega)
  rw [Datagram.start_succ hj] at hpos
  constructor
  · intro hle
    rw [← d.cutOk.blockOf_lt_iff (by omega) (by omega)]
    omega
  · intro hlt
    have hend := Datagram.end_eq hj
    have hle : ¬ blockOf d.sizes i < blockOf d.sizes (j + 1) := by
      rw [d.cutOk.blockOf_lt_iff (by omega) (by omega)]
      omega
    rw [d.cutOk.startOf_eq (by omega)] at hend
    omega

theorem startOver_of_rep (hrep : Rep d l got s) : startOver s (d.fragment j) = s := by
  rw [startOver, if_neg]
  rintro (h | h)
  · exact hrep.totalLen_ne h
  · exact h hrep.ipId

theorem fragment_fits (hj : j < d.count) : ¬ ipMaxUdp < startOf d.sizes (j + 1) := by
  rw [not_lt]
  exact d.cutOk.startOf_le (Datagram.length_sizes ▸ hj)

/-- A fragment is taken out of the run that it meets, or it meets none and nothing happens. -/
theorem netDefragment_cases (hrep : Rep d l got s)
    (hfirst : s.firstHole = headIdx (l.map (node d)) 0) (hne : l ≠ []) (hj : j < d.count) :
    (∃ l₁ r l₂ s' out, l = l₁ ++ r :: l₂ ∧ r.lo ≤ j ∧ j ≤ r.hi ∧
        takeFragment s (d.fragment j) (blockOf d.sizes j) (d.bytes j).length
        (blockOf d.sizes r.lo) = (s', out) ∧
        netDefragment s (d.fragment j) = some (s', out)) ∨
      (¬ Covers l j ∧ netDefragment s (d.fragment j) = some (s, none)) := by
  have hlen := Datagram.length_sizes (d := d)
  have hlength : l.length ≤ 65536 := by
    have hle := length_le_of_separated hrep.separated fun r hr =>
      ⟨Nat.zero_le _, lo_lt hrep.separated hrep.within hr⟩
    have hcount := length_le_sum_of_one_le d.sizes d.cutOk.pos
    have hfits : d.sizes.sum ≤ 16464 := d.cutOk.fits
    omega
  have hfind := findHole_spec hrep.separated hrep.within hrep.linked hj hne hlength
  have hcall : netDefragment s (d.fragment j) =
      some (((l.find? fun r => j ≤ r.hi).map fun r => blockOf d.sizes r.lo).elim (s, none) fun h =>
        if blockOf d.sizes j + ((d.bytes j).length + 7) / 8 ≤ h then (s, none)
          else takeFragment s (d.fragment j) (blockOf d.sizes j) (d.bytes j).length h) := by
    rw [netDefragment]
    dsimp only
    rw [Datagram.fragment_offset hj, Datagram.fragment_len, Datagram.end_eq hj,
      if_neg (fragment_fits hj), startOver_of_rep hrep, mul_comm, hfirst, hfind]
    cases l.find? fun r => j ≤ r.hi <;> rfl
  rw [hcall]
  cases hr : l.find? fun r => j ≤ r.hi with
  | none =>
    refine .inr ⟨?_, rfl⟩
    rintro ⟨r, hmem, -, hlt⟩
    have hno := find?_eq_none.mp hr r hmem
    simp only [decide_eq_true_eq] at hno
    omega
  | some r =>
    obtain ⟨hhi, l₁, l₂, rfl, hl₁⟩ := find?_eq_some_iff_append.mp hr
    simp only [decide_eq_true_eq, Bool.not_eq_true', decide_eq_false_iff_not] at hhi hl₁
    have hrlo := lo_lt hrep.separated hrep.within (r := r) (by simp)
    by_cases hlo : j < r.lo
    · refine .inr ⟨?_, ?_⟩
      · obtain ⟨-, hr', -, hafter⟩ := separated_append_cons.mp hrep.separated
        rw [covers_append_cons, covers_append]
        rintro (hc | ⟨q, hq, hc⟩ | ⟨q, hq, hc⟩)
        · exact absurd hc.1 (by omega)
        · exact hl₁ q hq hc.2.le
        · have hgap := hafter q hq
          have hle := hc.1
          omega
      · rw [Option.map_some, Option.elim_some, if_pos ((no_overlap_iff hj hrlo).mpr hlo)]
    · refine .inl ⟨l₁, r, l₂, _, _, rfl, by omega, hhi, rfl, ?_⟩
      rw [Option.map_some, Option.elim_some, if_neg (mt (no_overlap_iff hj hrlo).mp hlo)]
      rfl

/-! ### The arrival that is misread -/

/-- Of the fragments up to `j` exactly those from some `a > 0` to `j - 1` have arrived: the hole in
front of them is at index 0, and fragment `j` begins the second hole. -/
def Misread (arrived : List ℕ) (j : ℕ) : Prop :=
  ∃ a < j, 0 < a ∧ ∀ i < j + 1, (i ∈ arrived ↔ a ≤ i ∧ i < j)

instance (arrived : List ℕ) (j : ℕ) : Decidable (Misread arrived j) :=
  inferInstanceAs (Decidable (∃ a < j, 0 < a ∧ ∀ i < j + 1, (i ∈ arrived ↔ a ≤ i ∧ i < j)))

/-- The runs of missing fragments are listed, all others are in the buffer. -/
structure Tracking (d : Datagram) (l : List (Span ℕ)) (arrived : List ℕ) (s : Defrag) : Prop where
  rep : Rep d l {i | i ∈ arrived} s
  first : s.firstHole = headIdx (l.map (node d)) 0
  ne_nil : l ≠ []
  missing : ∀ i < d.count, i ∉ arrived → Covers l i

variable {arrived : List ℕ}

theorem Tracking.covers_iff (h : Tracking d l arrived s) (hi : i < d.count) :
    Covers l i ↔ i ∉ arrived :=
  ⟨fun hc ha => (h.rep.stored i ha).2.1 hc, h.missing i hi⟩

theorem blockOf_eq_zero (hi : i < d.count) (h : blockOf d.sizes i = 0) : i = 0 := by
  have hlen := Datagram.length_sizes (d := d)
  by_contra hne
  have hlt := (d.cutOk.blockOf_lt_iff (i := 0) (j := i) (by omega) (by omega)).mpr (by omega)
  omega

/-- If the second hole begins with fragment `j` and the first one is at index 0, the arrival of `j`
is misread. -/
theorem Tracking.misread (h : Tracking d (l₁ ++ r :: l₂) arrived s) (hl₁ : l₁ ≠ [])
    (hlast : lastIdx 0 (l₁.map (node d)) = 0) : Misread arrived r.lo := by
  obtain ⟨l₀, q, rfl⟩ := (eq_nil_or_concat' l₁).resolve_left hl₁
  obtain ⟨hfront, hr, hbefore, hafter⟩ := separated_append_cons.mp h.rep.separated
  have hqmem : q ∈ l₀ ++ [q] := by simp
  have hq0 : q.lo = 0 := by
    rw [map_append, lastIdx_append] at hlast
    exact blockOf_eq_zero (lo_lt h.rep.separated h.rep.within (by simp)) hlast
  have hqlt := hbefore q hqmem
  have hqne := h.rep.separated.nonempty q (by simp)
  have hrlt := lo_lt h.rep.separated h.rep.within (r := r) (by simp)
  refine ⟨q.hi, hqlt, by omega, fun i hi => ?_⟩
  have hcov := h.covers_iff (i := i) (by omega)
  constructor
  · intro ha
    have hnot : ¬ Covers (l₀ ++ [q] ++ r :: l₂) i := fun hc => hcov.mp hc ha
    refine ⟨?_, ?_⟩ <;> by_contra hlt <;> refine hnot ?_
    · exact ⟨q, by simp, by omega, by omega⟩
    · exact ⟨r, by simp, by omega, by omega⟩
  · rintro ⟨hge, hlt⟩
    by_contra hnot
    obtain ⟨p, hp, hplo, hphi⟩ := hcov.mpr hnot
    simp only [append_assoc, mem_append, mem_cons, singleton_append] at hp
    rcases hp with hp | rfl | rfl | hp
    · have hgap : p.hi < q.lo := by
        rw [append_assoc] at hfront
        exact (separated_append_cons.mp hfront).2.2.1 p hp
      omega
    · omega
    · omega
    · have hgap := hafter p hp
      omega

/-- Before a misread arrival, the first two holes are the run up to `a` and one that begins with
`j`. -/
theorem Tracking.second_hole (h : Tracking d l arrived s) (hj : j < d.count) (ha : 0 < a)
    (haj : a < j) (hiff : ∀ i < j + 1, (i ∈ arrived ↔ a ≤ i ∧ i < j)) :
    ∃ r l₂, l = ⟨0, a⟩ :: r :: l₂ ∧ r.lo = j := by
  have hcov : ∀ i < j + 1, (Covers l i ↔ ¬ (a ≤ i ∧ i < j)) := fun i hi => by
    rw [h.covers_iff (by omega), hiff i hi]
  have hsep := h.rep.separated
  obtain ⟨⟨lo, hi⟩, hq, hqlo, hqhi⟩ := hsep.exists_span (q := ⟨0, a⟩) ha fun i hi => by
    have hlt : i < a := hi.2
    exact (hcov i (by omega)).mpr (by omega)
  obtain rfl : lo = 0 := Nat.le_zero.mp hqlo
  obtain rfl : hi = a := by
    rcases eq_or_lt_of_le hqhi with heq | hlt
    · exact heq.symm
    · exact absurd ((hcov a (by omega)).mp ⟨_, hq, by dsimp only; omega, hlt⟩) (by omega)
  obtain ⟨r, hr, hrlo, hrhi⟩ := (hcov j (by omega)).mpr (by omega)
  have hrj : r.lo = j := by
    by_contra hne
    exact (hcov (j - 1) (by omega)).mp ⟨r, hr, by omega, by omega⟩ (by omega)
  obtain ⟨l₁, l₂, rfl⟩ := append_of_mem hr
  obtain ⟨hrest, -, hbefore, hafter⟩ := separated_append_cons.mp hsep
  -- every run in front of `r` begins below `a`
  have hfront : ∀ p ∈ l₁, p = ⟨0, hi⟩ := by
    intro p hp
    have hpne := hsep.nonempty p (by simp [hp])
    have hplt := hbefore p hp
    have hpa := (hcov p.lo (by omega)).mp (lo_covered hsep (by simp [hp]))
    rcases hsep.eq_or_gap (mem_append_left _ hp) hq with heq | hgap | hgap
    · exact heq
    · exact absurd hgap (Nat.not_lt_zero _)
    · dsimp only at hgap
      omega
  refine ⟨r, l₂, ?_, hrj⟩
  rcases l₁ with _ | ⟨p, _ | ⟨p', l₁⟩⟩
  · rcases mem_cons.mp hq with heq | hq
    · rw [← heq] at hrj
      exact absurd hrj ((ha.trans haj).ne)
    · exact absurd (hafter _ hq) (Nat.not_lt_zero _)
  · rw [hfront p (by simp)]
    rfl
  · have hgap := (pairwise_cons.mp hsep.gaps).1 p' (by simp)
    rw [hfront p' (by simp)] at hgap
    exact absurd hgap (Nat.not_lt_zero _)

/-! ### One arrival -/

/-- Fragments that are all in their places are the payload. -/
theorem contains_payload
    (h : ∀ i < d.count, Contains mem (startOf d.sizes i) (d.bytes i)) : Contains mem 0 d.payload := by
  have hgen : ∀ n ≤ d.count, Contains mem 0 (d.frags.take n).flatten := by
    intro n
    induction n with
    | zero => exact fun _ => trivial
    | succ n ih =>
      intro hn
      have hn' : n < d.frags.length := hn
      have hstart : startOf d.sizes n = (d.frags.take n).flatten.length := by
        rw [startOf, Datagram.sizes, ← map_take, length_flatten]
      rw [take_succ_eq_append_getElem hn', flatten_append, contains_append]
      refine ⟨ih (by omega), ?_⟩
      have hc := h n hn
      rw [hstart, Datagram.bytes, getD_eq_getElem _ _ hn'] at hc
      rw [flatten_singleton, zero_add]
      exact hc
  have hall := hgen d.count le_rfl
  rwa [show d.frags.take d.count = d.frags from take_length] at hall

theorem length_payload : d.payload.length = d.sizes.sum := by
  rw [Datagram.payload, length_flatten, Datagram.sizes]

theorem insert_arrived (arrived : List ℕ) (j : ℕ) : insert j {i | i ∈ arrived} =
    {i | i ∈ arrived ++ [j]} := by
  ext i
  simp [or_comm]

/-- What is returned when the datagram is complete. -/
def Returns (d : Datagram) (out : Option Reassembled) : Prop :=
  ∃ hdr, out = some ⟨hdr, ipHdrSize + d.payload.length, d.payload⟩

/-- An arrival that is not misread takes its fragment out of the missing ones, and the last one
returns the datagram. -/
theorem Tracking.step (h : Tracking d l arrived s) (hj : j < d.count)
    (hsafe : ¬ Misread arrived j) : ∃ s' out, netDefragment s (d.fragment j) = some (s', out) ∧
      ((∃ i < d.count, i ∉ arrived ++ [j]) → out = none ∧ ∃ l', Tracking d l' (arrived ++ [j]) s') ∧
      ((∀ i < d.count, i ∈ arrived ++ [j]) → Returns d out) := by
  rcases netDefragment_cases h.rep h.first h.ne_nil hj with
    ⟨l₁, r, l₂, s', out, rfl, hlo, hhi, hres, hcall⟩ | ⟨hnot, hcall⟩
  · have hprev : r.lo = j → l₁ = [] ∨ lastIdx 0 (l₁.map (node d)) ≠ 0 := by
      intro hrj
      by_contra hc
      push Not at hc
      exact hsafe (hrj ▸ h.misread hc.1 hc.2)
    obtain ⟨hrep, hfirst, hquiet, hdone, -⟩ := takeFragment_spec h.rep hlo hhi hj (.inr h.first) hprev hres
    rw [insert_arrived] at hrep
    have hmissing : ∀ i < d.count, i ∉ arrived ++ [j] → Covers (l₁ ++ (r.without j ++ l₂)) i := by
      intro i hi hni
      simp only [mem_append, mem_singleton, not_or] at hni
      exact (h.rep.separated.covers_without hlo hhi).mpr ⟨h.missing i hi hni.1, hni.2⟩
    refine ⟨s', out, hcall, ?_, fun hall => ?_⟩
    · rintro ⟨i, hi, hni⟩
      have hne : l₁ ++ (r.without j ++ l₂) ≠ [] := by
        obtain ⟨q, hq, -⟩ := hmissing i hi hni
        exact ne_nil_of_mem hq
      exact ⟨hquiet hne, _, hrep, hfirst hne, hne, hmissing⟩
    · have hnil : l₁ ++ (r.without j ++ l₂) = [] := by
        by_contra hne
        obtain ⟨q, hq⟩ := exists_mem_of_ne_nil _ hne
        have hc := lo_covered hrep.separated hq
        exact (hrep.stored q.lo (hall _ (covered_lt hrep.within hc))).2.1 hc
      have htotal := hrep.totalLen_eq (hall (d.count - 1) (by omega))
      have hload := (contains_payload fun i hi => (hrep.stored i (hall i hi)).2.2).load_eq
      dsimp only at hdone htotal hload
      rw [hdone hnil, htotal, ← length_payload, hload, add_comm]
      exact ⟨_, rfl⟩
  · have hmem : j ∈ arrived := by
      by_contra hc
      exact hnot (h.missing j hj hc)
    have hsame : {i | i ∈ arrived ++ [j]} = {i | i ∈ arrived} := by
      rw [← insert_arrived]
      exact Set.insert_eq_of_mem hmem
    refine ⟨s, none, hcall, fun _ => ⟨rfl, l, hsame ▸ h.rep, h.first, h.ne_nil, fun i hi hni => ?_⟩,
      fun hall => ?_⟩
    · exact h.missing i hi fun hc => hni (mem_append_left _ hc)
    · obtain ⟨q, hq⟩ := exists_mem_of_ne_nil _ h.ne_nil
      have hc := lo_covered h.rep.separated hq
      exact absurd hc (h.rep.stored q.lo (hsame.subset (hall _ (covered_lt h.rep.within hc)))).2.1

/-! ### After a misread arrival -/

/-- The hole in front of fragment `a` is no longer listed, and the first byte of its descriptor is
still in the buffer. -/
structure Lost (d : Datagram) (a : ℕ) (v : UInt8) (l : List (Span ℕ)) (got : Set ℕ) (s : Defrag) :
    Prop where
  rep : Rep d l got s
  first : s.firstHole = headIdx (l.map (node d)) 0
  ne_nil : l ≠ []
  pos : 0 < a
  lt : a < d.count
  behind : ∀ r ∈ l, a < r.lo
  payload_zero : s.payload 0 = v

variable {a : ℕ} {v : UInt8}

theorem Datagram.block_zero : blockOf d.sizes 0 = 0 := by
  rw [blockOf, startOf, take_zero, sum_nil, Nat.zero_div]

theorem Datagram.block_pos (ha : 0 < a) (hlt : a < d.count) : 0 < blockOf d.sizes a :=
  Nat.pos_of_ne_zero fun h => ha.ne' (blockOf_eq_zero hlt h)

theorem payload_zero_eq (h : lastByte mem 0 = n) : mem 0 = UInt8.ofNat (n % 256) := by
  have hsum : (mem 0).toNat + 256 * ((mem 1).toNat + 256 * 0) = n := h
  have hlt := (mem 0).toNat_lt
  rw [show n % 256 = (mem 0).toNat by omega, UInt8.ofNat_toNat]

/-- A misread arrival returns a packet, or the first hole is lost. -/
theorem Tracking.step_misread (h : Tracking d l arrived s) (hj : j < d.count)
    (ha : 0 < a) (haj : a < j) (hiff : ∀ i < j + 1, (i ∈ arrived ↔ a ≤ i ∧ i < j)) :
    ∃ s' out, netDefragment s (d.fragment j) = some (s', out) ∧
      (out = none → ∃ l' got, Lost d a (UInt8.ofNat (8 * blockOf d.sizes a % 256)) l' got s') := by
  obtain ⟨r, l₂, rfl, hrj⟩ := h.second_hole hj ha haj hiff
  have hsep := h.rep.separated
  have hrne := hsep.nonempty r (by simp)
  rcases netDefragment_cases h.rep h.first h.ne_nil
      hj with ⟨l₁, q, l₃, s', out, hl, hlo, hhi, hres, hcall⟩ | ⟨hnot, -⟩
  swap
  · exact absurd ⟨r, by simp, by omega, by omega⟩ hnot
  obtain rfl : q = r := by
    rcases hsep.eq_or_gap (r := q) (q := r) (by simp [hl]) (by simp) with heq | hgap | hgap
    · exact heq
    · omega
    · omega
  -- the second hole has no predecessor to be seen, so the list seems to begin with it
  have hsub : Rep d ([] ++ q :: l₂) {i | i ∈ arrived} s := by
    have hlinked := h.rep.linked.2
    rw [node, Datagram.block_zero] at hlinked
    refine { h.rep with
      separated := hsep.sublist (sublist_cons_self _ _)
      within := (forall_mem_cons.mp h.rep.within).2
      linked := hlinked
      stored := fun i hi => ?_ }
    obtain ⟨hlt, hnot, hc⟩ := h.rep.stored i hi
    exact ⟨hlt, fun hcov => hnot (hcov.imp fun q hq => ⟨mem_cons_of_mem _ hq.1, hq.2⟩), hc⟩
  have hfill := takeFragment_spec hsub hlo hhi hj (.inl ⟨rfl, hrj⟩) (fun _ => .inl rfl) hres
  refine ⟨s', out, hcall, fun hout => ?_⟩
  have hne := hfill.ne_nil hout
  have hge : ∀ p ∈ q :: l₂, j ≤ p.lo := by
    intro p hp
    rcases mem_cons.mp hp with rfl | hp
    · exact hrj.ge
    · have hgap := (separated_append_cons.mp hsub.separated).2.2.2 p hp
      omega
  refine ⟨_, _, hfill.rep, hfill.first hne, hne, ha, by omega, fun q hq => ?_, ?_⟩
  · obtain ⟨p, hp, hplo, -⟩ := ((hsub.separated.covers_without hlo hhi).mp
        (lo_covered hfill.rep.separated hq)).1
    have hple := hge p hp
    omega
  · have hblock := Datagram.block_pos (ha.trans haj) hj
    rw [hfill.frame j hj hge 0 (by omega)]
    refine payload_zero_eq ?_
    have hval := congrArg Node.val h.rep.linked.1
    rw [node, Datagram.block_zero] at hval
    refine Eq.trans hval ?_
    rw [endByte, if_neg (by dsimp only; omega)]

theorem count_pos : 0 < d.count := by
  rw [← Datagram.length_sizes]
  exact length_pos_iff.mpr d.cutOk.ne_nil

theorem sizes_sum_pos : 0 < d.sizes.sum := by
  have hlt := d.cutOk.startOf_lt (Datagram.length_sizes ▸ count_pos) le_rfl
  rw [startOf_length] at hlt
  exact Nat.zero_lt_of_lt hlt

/-- Once the first hole is lost it stays lost, and no packet that is returned begins with the first
byte of the datagram. -/
theorem Lost.step (h : Lost d a v l got s) (hj : j < d.count) (hv : d.payload[0]? ≠ some v) :
    ∃ s' out, netDefragment s (d.fragment j) = some (s', out) ∧
      (out = none → ∃ l' got', Lost d a v l' got' s') ∧ ¬ Returns d out := by
  rcases netDefragment_cases h.rep h.first h.ne_nil hj with
    ⟨l₁, r, l₂, s', out, rfl, hlo, hhi, hres, hcall⟩ | ⟨-, hcall⟩
  · have hprev : r.lo = j → l₁ = [] ∨ lastIdx 0 (l₁.map (node d)) ≠ 0 := by
      intro _
      rcases eq_nil_or_concat' l₁ with hnil | ⟨l₀, q, rfl⟩
      · exact .inl hnil
      · have hq : q ∈ l₀ ++ [q] ++ r :: l₂ := by simp
        rw [map_append, lastIdx_append]
        exact .inr ((Datagram.block_pos (Nat.zero_lt_of_lt (h.behind q hq))
          (lo_lt h.rep.separated h.rep.within hq)).ne')
    have hfill := takeFragment_spec h.rep hlo hhi hj (.inr h.first) hprev hres
    have hzero : s'.payload 0 = v := by
      have hblock := Datagram.block_pos h.pos h.lt
      rw [← h.payload_zero]
      exact hfill.frame a h.lt (fun q hq => (h.behind q hq).le) 0 (by omega)
    refine ⟨s', out, hcall, fun hout => ?_, ?_⟩
    · have hne := hfill.ne_nil hout
      refine ⟨_, _, hfill.rep, hfill.first hne, hne, h.pos, h.lt, fun q hq => ?_, hzero⟩
      obtain ⟨p, hp, hplo, -⟩ := ((h.rep.separated.covers_without hlo hhi).mp
          (lo_covered hfill.rep.separated hq)).1
      exact (h.behind p hp).trans_le hplo
    · rintro ⟨hdr, hout⟩
      by_cases hnil : l₁ ++ (r.without j ++ l₂) = []
      · have hdata := congrArg (Option.map Reassembled.data) ((hfill.done hnil).symm.trans hout)
        simp only [Option.map_some, Option.some.injEq] at hdata
        have hpos : 0 < s'.totalLen := by
          rw [← length_load s'.payload 0 s'.totalLen, hdata, length_payload]
          exact sizes_sum_pos
        refine hv ?_
        rw [← hdata, load, getElem?_map, getElem?_range hpos]
        exact congrArg some hzero
      · have hquiet := hfill.quiet hnil
        rw [hout] at hquiet
        cases hquiet
  · exact ⟨s, none, hcall, fun _ => ⟨l, got, h⟩, by rintro ⟨_, hc⟩; cases hc⟩

/-! ### Whole sequences -/

/-- The static variables are those of another datagram. -/
def Fresh (d : Datagram) (s : Defrag) : Prop := s.totalLen = 0 ∨ s.localip.ipId ≠ d.ipId

/-- The state after the arrivals so far. -/
def Inv (d : Datagram) (arrived : List ℕ) (s : Defrag) : Prop :=
  (arrived = [] ∧ Fresh d s) ∨ ∃ l, Tracking d l arrived s

theorem tracking_startOver (h : Fresh d s) : Tracking d [⟨0, d.count⟩] []
    (startOver s (d.fragment j)) := by
  have hcond : s.totalLen = 0 ∨ s.localip.ipId ≠ (d.fragment j).ipId := h
  rw [startOver, if_pos hcond]
  refine ⟨⟨⟨?_, pairwise_singleton _ _⟩, ?_, ⟨?_, trivial⟩, fun i hi => absurd hi not_mem_nil,
    rfl, by simp, fun hi => absurd hi not_mem_nil⟩, ?_, by simp, fun i hi _ =>
    ⟨_, mem_cons_self, Nat.zero_le i, hi⟩⟩
  · rintro r (_ | ⟨_, ⟨⟩⟩)
    exact count_pos
  · rintro r (_ | ⟨_, ⟨⟩⟩)
    exact le_rfl
  · rw [node, Datagram.block_zero, endByte, descriptor_setPrevHole _ _ (by decide),
      descriptor_setNextHole _ _ (by decide), descriptor_setLastByte _ _ (by decide)]
    simp [setPrev, setNext, setVal, headIdx]
  · rw [map_singleton, headIdx, node, Datagram.block_zero]

/-- A datagram that starts over is tracked from its first fragment on. -/
theorem Inv.resume (h : Inv d arrived s) (hj : j < d.count) :
    ∃ s₀ l, Tracking d l arrived s₀ ∧ netDefragment s (d.fragment j) = netDefragment s₀
    (d.fragment j) := by
  rcases h with ⟨rfl, hfresh⟩ | ⟨l, h⟩
  · have htrack := tracking_startOver (j := j) hfresh
    refine ⟨_, _, htrack, ?_⟩
    rw [netDefragment, netDefragment]
    simp only [Datagram.fragment_offset hj, Datagram.fragment_len, Datagram.end_eq hj,
      if_neg (fragment_fits hj), startOver_of_rep htrack.rep]
  · exact ⟨s, l, h, rfl⟩

/-- The arrivals so far, one more. -/
def arrive (arrived : List ℕ) (j : ℕ) : List ℕ := arrived ++ [j]

/-- No arrival of the sequence is misread. -/
def NoneMisread (arr : List ℕ) : Prop := Guarded arrive (fun arrived j => ¬ Misread arrived j)
    [] arr

instance (arr : List ℕ) : Decidable (NoneMisread arr) :=
  inferInstanceAs (Decidable (Guarded arrive (fun arrived j => ¬ Misread arrived j) [] arr))

variable {arr : List ℕ} {s' : Defrag}

theorem quietly_append (s : Defrag) (ips ips' : List IpPacket) :
    quietly s (ips ++ ips') = (quietly s ips).bind fun s' => quietly s' ips' := by
  induction ips generalizing s with
  | nil => rfl
  | cons ip ips ih =>
    rw [cons_append, quietly, quietly, Option.bind_assoc]
    refine congrArg _ (funext fun res => ?_)
    split
    · rfl
    · exact ih res.1

theorem quietly_cons_of_none {ip : IpPacket} {ips : List IpPacket}
    (h : netDefragment s ip = some (s', none)) : quietly s (ip :: ips) = quietly s' ips := by
  rw [quietly, h]
  rfl

/-- Arrivals that are not misread and leave a fragment missing return nothing. -/
theorem Inv.quietly (h : Inv d arrived s) (harr : ∀ j ∈ arr, j < d.count)
    (hsafe : Guarded arrive (fun arrived j => ¬ Misread arrived j) arrived arr)
    (hmiss : ∃ i < d.count, i ∉ arrived ++ arr) :
    ∃ s', quietly s (arr.map d.fragment) = some s' ∧ Inv d (arrived ++ arr) s' := by
  induction arr generalizing arrived s with
  | nil =>
    rw [append_nil]
    exact ⟨s, rfl, h⟩
  | cons j arr ih =>
    have hj := harr j mem_cons_self
    obtain ⟨s₀, l, htrack, hcall⟩ := h.resume hj
    obtain ⟨s', out, hstep, hquiet, -⟩ := htrack.step hj hsafe.1
    rw [append_cons] at hmiss ⊢
    obtain ⟨rfl, l', htrack'⟩ := hquiet <| by
      obtain ⟨i, hi, hni⟩ := hmiss
      exact ⟨i, hi, fun hc => hni (mem_append_left _ hc)⟩
    rw [map_cons, quietly_cons_of_none (hcall.trans hstep)]
    exact ih (.inr ⟨l', htrack'⟩) (forall_mem_cons.mp harr).2 hsafe.2 hmiss

theorem Lost.quietly (h : Lost d a v l got s) (harr : ∀ j ∈ arr, j < d.count)
    (hv : d.payload[0]? ≠ some v) (hquiet : quietly s (arr.map d.fragment) = some s') :
    ∃ l' got', Lost d a v l' got' s' := by
  induction arr generalizing l got s with
  | nil => exact ⟨l, got, Option.some.inj hquiet ▸ h⟩
  | cons j arr ih =>
    obtain ⟨s₁, out, hstep, hlost, -⟩ := h.step (harr j mem_cons_self) hv
    cases out with
    | none =>
      obtain ⟨l', got', h'⟩ := hlost rfl
      rw [map_cons, quietly_cons_of_none hstep] at hquiet
      exact ih h' (forall_mem_cons.mp harr).2 hquiet
    | some res =>
      rw [map_cons, UBoot.Net.quietly, hstep] at hquiet
      cases hquiet

/-! ### The result -/

/-- A sequence of arrivals, in any order and with duplicates, that leaves only the fragment `last`
missing. -/
structure Arrivals (n : ℕ) (arr : List ℕ) (last : ℕ) : Prop where
  lt : ∀ j ∈ arr, j < n
  last_lt : last < n
  last_notMem : last ∉ arr
  all : ∀ i < n, i ≠ last → i ∈ arr

/-- No packet is returned before `last` arrives, and then the datagram is. -/
def Reassembles (d : Datagram) (s : Defrag) (arr : List ℕ) (last : ℕ) : Prop :=
  ∃ s' s'' out, quietly s (arr.map d.fragment) = some s' ∧
    netDefragment s' (d.fragment last) = some (s'', out) ∧ Returns d out

/-- A datagram with the given fragment sizes, all of whose bytes are `c`. -/
def uniform {sizes : List ℕ} (hcut : CutOk sizes) (c : UInt8) : Datagram where
  ipId := 0
  frags := sizes.map fun n => List.replicate n c
  cut := by simpa [Function.comp_def] using hcut

theorem sizes_uniform (hcut : CutOk sizes) (c : UInt8) : (uniform hcut c).sizes = sizes := by
  simp [Datagram.sizes, uniform, Function.comp_def]

/-- For a given cut and a given sequence of arrivals, every datagram is reassembled whatever it
contains and whatever the buffer held before, exactly if no arrival is misread. -/
theorem reassembles_iff_noneMisread {sizes : List ℕ} {last : ℕ} (hcut : CutOk sizes)
    (harr : Arrivals sizes.length arr last) :
    (∀ d : Datagram, d.sizes = sizes → ∀ s : Defrag, Fresh d s → Reassembles d s arr last) ↔
      NoneMisread arr := by
  constructor
  · intro hall
    by_contra hmis
    obtain ⟨bs, j, cs, rfl, hbs, hj⟩ := Guarded.exists_first_failure hmis
    rw [show bs.foldl arrive [] = bs from flatMap_eq_foldl.symm.trans (flatMap_singleton' bs),
      not_not] at hj
    obtain ⟨a, haj, ha, hiff⟩ := hj
    -- the first byte of the datagram is chosen to differ from the descriptor that stays in the
    -- buffer
    obtain ⟨v, hv⟩ : ∃ v, v = UInt8.ofNat (8 * blockOf sizes a % 256) := ⟨_, rfl⟩
    have hsizes := sizes_uniform hcut (v + 1)
    have hfirst : (uniform hcut (v + 1)).payload[0]? ≠ some v := fun h => by
      obtain ⟨f, hf, hb⟩ := mem_flatten.mp (mem_of_getElem? h)
      obtain ⟨n, -, rfl⟩ := mem_map.mp hf
      have heq := eq_of_mem_replicate hb
      simp at heq
    obtain ⟨d, hd⟩ : ∃ d, d = uniform hcut (v + 1) := ⟨_, rfl⟩
    rw [← hd] at hsizes hfirst
    have hcount : d.count = sizes.length := by rw [← Datagram.length_sizes, hsizes]
    rw [← hcount] at harr
    have hfresh : Fresh d ⟨⟨0, 0, 0⟩, fun _ => 0, 0, 0⟩ := .inl rfl
    obtain ⟨s', s'', out, hquiet, hlast, hout⟩ := hall d hsizes _ hfresh
    rw [map_append, map_cons, quietly_append] at hquiet
    have hmiss : (0 : ℕ) ∉ bs := fun h => Nat.not_lt_of_le ((hiff 0 (by omega)).mp h).1 ha
    obtain ⟨s₁, hs₁, hinv⟩ := Inv.quietly (.inl ⟨rfl, hfresh⟩)
      (fun k hk => harr.lt k (mem_append_left _ hk)) hbs ⟨0, count_pos, by rwa [nil_append]⟩
    have hj := harr.lt j (by simp)
    obtain ⟨s₀, l, htrack, hcall⟩ := hinv.resume hj
    obtain ⟨s₂, out₂, hstep, hlost⟩ := htrack.step_misread hj ha haj hiff
    rw [hs₁, Option.bind_some] at hquiet
    cases out₂ with
    | some res =>
      rw [quietly, hcall, hstep] at hquiet
      cases hquiet
    | none =>
      obtain ⟨l', got, hlost⟩ := hlost rfl
      rw [hsizes, ← hv] at hlost
      rw [quietly_cons_of_none (hcall.trans hstep)] at hquiet
      obtain ⟨l'', got', hlost'⟩ := hlost.quietly
        (fun k hk => harr.lt k (mem_append_right _ (mem_cons_of_mem j hk))) hfirst hquiet
      obtain ⟨_, out', hcall', -, hnot⟩ := hlost'.step harr.last_lt hfirst
      rw [hlast] at hcall'
      cases hcall'
      exact hnot hout
  · intro hsafe d hd s hfresh
    have hcount : d.count = sizes.length := by rw [← Datagram.length_sizes, hd]
    rw [← hcount] at harr
    obtain ⟨s', hquiet, hinv⟩ := Inv.quietly (.inl ⟨rfl, hfresh⟩) harr.lt hsafe
      ⟨last, harr.last_lt, by rw [nil_append]; exact harr.last_notMem⟩
    have hlast : ¬ Misread arr last := by
      rintro ⟨a, hlt, ha, hiff⟩
      have hzero := harr.all 0 count_pos (by omega)
      exact Nat.not_lt_of_le ((hiff 0 (by omega)).mp hzero).1 ha
    obtain ⟨s₀, l, htrack, hcall⟩ := hinv.resume harr.last_lt
    obtain ⟨s'', out, hstep, -, hret⟩ := htrack.step harr.last_lt hlast
    refine ⟨s', s'', out, hquiet, hcall.trans hstep, hret fun i hi => ?_⟩
    rcases eq_or_ne i last with rfl | hne
    · simp
    · simp [harr.all i hi hne]

/-- Three fragments that arrive from the last to the first, one of them twice. -/
theorem reassembles_iff_noneMisread_backwards :
    CutOk [8, 16, 3] ∧ Arrivals 3 [2, 1, 2] 0 ∧ NoneMisread [2, 1, 2] ∧
      ((∀ d : Datagram, d.sizes = [8, 16, 3] → ∀ s : Defrag, Fresh d s →
        Reassembles d s [2, 1, 2] 0) ↔ NoneMisread [2, 1, 2]) := by
  have hcut : CutOk [8, 16, 3] := ⟨by decide, by decide, by decide, by decide⟩
  have harr : Arrivals 3 [2, 1, 2] 0 := ⟨by decide, by decide, by decide, by decide⟩
  exact ⟨hcut, harr, by decide, reassembles_iff_noneMisread hcut harr⟩

/-- Three blocks of eight bytes each. -/
def threeBlocks : Datagram :=
  uniform (show CutOk [8, 8, 8] from ⟨by decide, by decide, by decide, by decide⟩) 1

/-- The second and the third block arrive in order before the first one: with the third block a
packet is returned although the first one is missing. -/
theorem not_reassembles_first_missing :
    Arrivals threeBlocks.count [1, 2] 0 ∧ Fresh threeBlocks ⟨⟨0, 0, 0⟩, fun _ => 0, 0, 0⟩ ∧
      ¬ Reassembles threeBlocks ⟨⟨0, 0, 0⟩, fun _ => 0, 0, 0⟩ [1, 2] 0 := by
  refine ⟨⟨by decide, by decide, by decide, by decide⟩, .inl rfl, ?_⟩
  rintro ⟨s', s'', out, hquiet, -⟩
  have hnone : (quietly ⟨⟨0, 0, 0⟩, fun _ => 0, 0, 0⟩ ([1, 2].map threeBlocks.fragment)).isNone =
    true := by
    decide
  rw [hquiet] at hnone
  cases hnone

end UBoot.Net
