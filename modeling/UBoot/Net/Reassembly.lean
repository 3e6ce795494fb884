import Mathlib.Algebra.BigOperators.Ring.List
import Mathlib.Algebra.Ring.Nat
import Mathlib.Data.List.GetD
import Mathlib.Data.Nat.Bitwise
import Mathlib.Data.Set.Insert
import UBoot.Common.Run
import UBoot.Common.Spans
import UBoot.Net.HoleList

/-!
# Reassembly of a datagram

A datagram is cut into fragments and the fragments arrive in some order. While the list of holes
covers exactly the fragments that are missing, each arrival takes one fragment out of it, and the
arrival that empties the list returns the datagram. This goes wrong in one situation only: the first
fragment is still missing, so that its hole is at index 0, and a fragment arrives that begins where
the second hole begins.
-/

namespace UBoot.Net

open UBoot.Common List

/-! ### Cutting a datagram -/

/-- Where fragment `i` of a datagram with the given fragment sizes begins. -/
def startOf (sizes : List ℕ) (i : ℕ) : ℕ := (sizes.take i).sum

/-- The 8-byte block in which fragment `i` begins. -/
def blockOf (sizes : List ℕ) (i : ℕ) : ℕ := startOf sizes i / 8

/-- A cut at 8-byte boundaries into fragments that are not empty and fit into the buffer. -/
structure CutOk (sizes : List ℕ) : Prop where
  ne_nil : sizes ≠ []
  pos : ∀ n ∈ sizes, 0 < n
  aligned : ∀ n ∈ sizes.dropLast, 8 ∣ n
  fits : sizes.sum ≤ ipMaxUdp

section Cut

variable {sizes : List ℕ} {i j : ℕ}

theorem startOf_succ (hi : i < sizes.length) :
    startOf sizes (i + 1) = startOf sizes i + sizes[i] := by
  rw [startOf, take_succ_eq_append_getElem hi, sum_append, sum_singleton, startOf]

theorem startOf_length (sizes : List ℕ) : startOf sizes sizes.length = sizes.sum := by
  rw [startOf, take_length]

variable (h : CutOk sizes)
include h

theorem CutOk.startOf_eq (hi : i < sizes.length) : startOf sizes i = 8 * blockOf sizes i := by
  have hdvd : 8 ∣ startOf sizes i := by
    refine dvd_sum fun n hn => h.aligned n ?_
    rw [dropLast_eq_take]
    exact take_subset_take_left sizes (by omega) hn
  rw [blockOf, Nat.mul_div_cancel' hdvd]

theorem CutOk.startOf_lt (hij : i < j) (hj : j ≤ sizes.length) :
    startOf sizes i < startOf sizes j := by
  induction j with
  | zero => omega
  | succ j ih =>
    have hpos := h.pos sizes[j] (getElem_mem _)
    rw [startOf_succ hj]
    rcases Nat.lt_succ_iff_lt_or_eq.mp hij with hij | rfl <;> omega

theorem CutOk.blockOf_lt_iff (hi : i < sizes.length) (hj : j < sizes.length) :
    blockOf sizes i < blockOf sizes j ↔ i < j := by
  have hmono : ∀ {a b}, a < b → b < sizes.length → blockOf sizes a < blockOf sizes b := by
    intro a b hab hb
    have hlt := h.startOf_lt hab hb.le
    rw [h.startOf_eq (hab.trans hb), h.startOf_eq hb] at hlt
    omega
  refine ⟨fun hlt => ?_, fun hlt => hmono hlt hj⟩
  by_contra hge
  rcases eq_or_lt_of_le (not_lt.mp hge) with rfl | hlt'
  · exact lt_irrefl _ hlt
  · exact lt_asymm hlt (hmono hlt' hi)

theorem CutOk.startOf_le (hi : i ≤ sizes.length) : startOf sizes i ≤ ipMaxUdp := by
  rcases eq_or_lt_of_le hi with rfl | hlt
  · rw [startOf_length]
    exact h.fits
  · have hlast := h.startOf_lt hlt le_rfl
    rw [startOf_length] at hlast
    exact hlast.le.trans h.fits

/-- The bytes of a fragment are not in the first block of another one. -/
theorem CutOk.block_ne {a : ℕ} (hi : i < sizes.length) (hj : j < sizes.length)
    (hij : i ≠ j) (ha : startOf sizes i ≤ a) (hb : a < startOf sizes (i + 1)) :
    a / 8 ≠ blockOf sizes j := by
  have hsi := h.startOf_eq hi
  rcases lt_or_gt_of_ne hij with hlt | hlt
  · have hs := h.startOf_eq (i := i + 1) (by omega)
    have hle : ¬ blockOf sizes j < blockOf sizes (i + 1) := by
      rw [h.blockOf_lt_iff hj (by omega)]
      omega
    omega
  · have hlt' := (h.blockOf_lt_iff hj hi).mpr hlt
    omega

end Cut

/-- A datagram and the way it is cut. -/
structure Datagram where
  ipId : ℕ
  frags : List (List UInt8)
  cut : CutOk (frags.map List.length)

namespace Datagram

variable (d : Datagram)

def sizes : List ℕ := d.frags.map List.length

/-- The number of fragments. -/
def count : ℕ := d.frags.length

/-- The bytes of fragment `i`. -/
def bytes (i : ℕ) : List UInt8 := d.frags.getD i []

/-- Fragment `i` as it is sent. -/
def fragment (i : ℕ) : IpPacket where
  ipLen := ipHdrSize + (d.bytes i).length
  ipId := d.ipId
  ipOff := blockOf d.sizes i + if i + 1 < d.count then ipFlagsMfrag else 0
  indata := ofList (d.bytes i) 0
  hdr_le := Nat.le_add_right _ _

/-- The payload of the datagram. -/
def payload : List UInt8 := d.frags.flatten

variable {d} {i j : ℕ}

theorem length_sizes : d.sizes.length = d.count := length_map _

theorem cutOk : CutOk d.sizes := d.cut

theorem start_succ (hi : i < d.count) : startOf d.sizes (i + 1) = startOf d.sizes i +
    (d.bytes i).length := by
  have hi' : i < d.frags.length := hi
  rw [startOf_succ (length_sizes ▸ hi), bytes, getD_eq_getElem _ _ hi']
  simp [sizes]

theorem block_lt (hi : i < d.count) : 8 * blockOf d.sizes i < ipMaxUdp := by
  have hlen := length_sizes (d := d)
  have hlt := d.cutOk.startOf_lt (Nat.lt_succ_self i) (by omega)
  have hle := d.cutOk.startOf_le (i := i + 1) (by omega)
  rw [← d.cutOk.startOf_eq (by omega)]
  exact hlt.trans_le hle

theorem fragment_len : (d.fragment i).ipLen - ipHdrSize = (d.bytes i).length :=
  Nat.add_sub_cancel_left _ _

theorem fragment_offset (hi : i < d.count) :
    (d.fragment i).ipOff &&& ipOffs = blockOf d.sizes i := by
  have hlt : 8 * blockOf d.sizes i < 16464 := block_lt hi
  have hmod := Nat.and_two_pow_sub_one_eq_mod (d.fragment i).ipOff 13
  rw [show ipOffs = 2 ^ 13 - 1 from rfl, hmod, fragment]
  dsimp only
  split
  · rw [show ipFlagsMfrag = 2 ^ 13 from rfl, Nat.add_mod_right, Nat.mod_eq_of_lt (by omega)]
  · rw [add_zero, Nat.mod_eq_of_lt (by omega)]

theorem fragment_mfrag (hi : i < d.count) : (d.fragment i).ipOff &&& ipFlagsMfrag = 0 ↔
    i + 1 = d.count := by
  have hlt : 8 * blockOf d.sizes i < 16464 := block_lt hi
  have hbit : (blockOf d.sizes i).testBit 13 = false := Nat.testBit_lt_two_pow (by omega)
  rw [show ipFlagsMfrag = 2 ^ 13 from rfl, Nat.and_two_pow, fragment]
  dsimp only
  split
  · rw [show ipFlagsMfrag = 2 ^ 13 from rfl, add_comm, Nat.testBit_two_pow_add_eq, hbit]
    simp
    omega
  · rw [add_zero, hbit]
    simp
    omega

end Datagram

/-! ### The holes of a datagram -/

/-- The value of `last_byte` for a hole that ends before fragment `j`: the end of the datagram is
not known before its last fragment arrives. -/
def endByte (d : Datagram) (j : ℕ) : ℕ := if j = d.count then 0xffff else 8 * blockOf d.sizes j

/-- A run of missing fragments as an element of the hole list. -/
def node (d : Datagram) (r : Span ℕ) : ℕ × ℕ := (blockOf d.sizes r.lo, endByte d r.hi)

/-- The descriptors list the runs `l` of missing fragments, and the buffer holds the fragments in
`got`. -/
structure Rep (d : Datagram) (l : List (Span ℕ)) (got : Set ℕ) (s : Defrag) : Prop where
  separated : Separated l
  within : ∀ r ∈ l, r.hi ≤ d.count
  linked : Linked (descriptor s.payload) 0 (l.map (node d)) 0
  stored : ∀ i ∈ got, i < d.count ∧ ¬ Covers l i ∧ Contains s.payload (startOf d.sizes i) (d.bytes i)
  ipId : s.localip.ipId = d.ipId
  totalLen_ne : s.totalLen ≠ 0
  totalLen_eq : d.count - 1 ∈ got → s.totalLen = d.sizes.sum

section Holes

variable {d : Datagram} {l l₁ l₂ : List (Span ℕ)} {r : Span ℕ} {got : Set ℕ} {s : Defrag} {i j : ℕ}

theorem lo_lt (hsep : Separated l) (hwithin : ∀ r ∈ l, r.hi ≤ d.count) (hr : r ∈ l) :
    r.lo < d.count :=
  (hsep.nonempty r hr).trans_le (hwithin r hr)

theorem ascending_nodes (hsep : Separated l) (hwithin : ∀ r ∈ l, r.hi ≤ d.count) :
    Ascending (l.map (node d)) := by
  refine pairwise_map.mpr (hsep.gaps.imp_of_mem fun {r q} hr hq hgap => ?_)
  rw [node, node, d.cutOk.blockOf_lt_iff]
  · exact (hsep.nonempty r hr).trans hgap
  · rw [Datagram.length_sizes]
    exact lo_lt hsep hwithin hr
  · rw [Datagram.length_sizes]
    exact lo_lt hsep hwithin hq

theorem endByte_lt_iff (hj : j < d.count) (hi : i ≤ d.count) :
    endByte d i < 8 * blockOf d.sizes j ↔ i < j := by
  have hlen := Datagram.length_sizes (d := d)
  have hblock : 8 * blockOf d.sizes j < 16464 := Datagram.block_lt hj
  rw [endByte]
  split
  · omega
  · rw [Nat.mul_lt_mul_left (by decide), d.cutOk.blockOf_lt_iff (by omega) (by omega)]

/-- The search stops at the first hole that does not end before the fragment. -/
theorem findHole_spec {p fuel : ℕ} (hsep : Separated l) (hwithin : ∀ r ∈ l, r.hi ≤ d.count)
    (hlinked : Linked (descriptor s.payload) p (l.map (node d)) 0) (hj : j < d.count) (hne : l ≠ [])
    (hfuel : l.length ≤ fuel) :
    findHole s.payload (8 * blockOf d.sizes j) fuel (headIdx (l.map (node d)) 0) =
      some ((l.find? fun r => j ≤ r.hi).map fun r => blockOf d.sizes r.lo) := by
  induction l generalizing p fuel with
  | nil => exact absurd rfl hne
  | cons r l ih =>
    obtain ⟨fuel, rfl⟩ : ∃ n, fuel = n + 1 := ⟨fuel - 1, by simp at hfuel; omega⟩
    have hlast : lastByte s.payload (blockOf d.sizes r.lo) = endByte d r.hi := congrArg Node.val hlinked.1
    have hnext : nextHole s.payload (blockOf d.sizes r.lo) = headIdx (l.map (node d)) 0 :=
      congrArg Node.next hlinked.1
    have hcmp := endByte_lt_iff hj (hwithin r mem_cons_self)
    rw [map_cons, headIdx, node, findHole, hlast, hnext, find?_cons]
    by_cases hr : r.hi < j
    · rw [if_pos (hcmp.mpr hr), decide_eq_false (by omega)]
      rcases l with _ | ⟨q, l⟩
      · simp [headIdx]
      have hasc := ascending_nodes hsep hwithin
      have hq0 : headIdx ((q :: l).map (node d)) 0 ≠ 0 :=
        Nat.ne_zero_of_lt (hasc.head_lt (node d q) (by simp))
      rw [if_neg hq0]
      exact ih (hsep.sublist (sublist_cons_self r _)) (forall_mem_cons.mp hwithin).2 hlinked.2 (by simp)
        (by simpa using hfuel)
    · rw [if_neg (hr ∘ hcmp.mp), decide_eq_true (by omega)]
      rfl

/-! ### One fragment -/

/-- The value of `last_byte` of the hole that fragment `j` meets, after the last fragment has
truncated it. -/
def truncatedEnd (d : Datagram) (r : Span ℕ) (j : ℕ) : ℕ :=
  if j + 1 = d.count then d.sizes.sum else endByte d r.hi

theorem truncatedEnd_le_iff (hj : j < d.count) (hr : r.hi ≤ d.count) :
    truncatedEnd d r j ≤ startOf d.sizes (j + 1) ↔ r.hi ≤ j + 1 := by
  have hlen := Datagram.length_sizes (d := d)
  rw [truncatedEnd]
  split
  · rename_i hlast
    rw [hlast, ← hlen, startOf_length]
    omega
  · rw [d.cutOk.startOf_eq (by omega), ← not_lt, ← not_lt, endByte]
    split
    · have hblock : 8 * blockOf d.sizes (j + 1) < 16464 := Datagram.block_lt (by omega)
      omega
    · rw [Nat.mul_lt_mul_left (by decide), d.cutOk.blockOf_lt_iff (by omega) (by omega)]

theorem Datagram.end_eq (hj : j < d.count) : blockOf d.sizes j * 8 + (d.bytes j).length = startOf
    d.sizes (j + 1) := by
  have hlen := Datagram.length_sizes (d := d)
  rw [Datagram.start_succ hj, d.cutOk.startOf_eq (by omega), mul_comm]

theorem Datagram.next_block (hj : j + 1 < d.count) :
    blockOf d.sizes j + (d.bytes j).length / 8 = blockOf d.sizes (j + 1) := by
  have hlen := Datagram.length_sizes (d := d)
  have hend := Datagram.end_eq (d := d) (j := j) (by omega)
  rw [d.cutOk.startOf_eq (by omega)] at hend
  omega

theorem node_of_lt (hj : j < d.count) (i : ℕ) :
    node d ⟨i, j⟩ = (blockOf d.sizes i, blockOf d.sizes j * 8) := by
  rw [node, endByte, if_neg hj.ne, mul_comm]

theorem Datagram.block_lt_u16 (hj : j < d.count) : blockOf d.sizes j * 8 < 65536 := by
  have hblock : 8 * blockOf d.sizes j < 16464 := Datagram.block_lt hj
  omega

/-- What is behind fragment `j` in the run `r` becomes a hole with the old end. -/
theorem node_behind (hj : j + 1 < d.count) :
    node d ⟨j + 1, r.hi⟩ = (blockOf d.sizes j + (d.bytes j).length / 8, truncatedEnd d r j) := by
  rw [node, Datagram.next_block hj, truncatedEnd, if_neg hj.ne]

theorem Datagram.next_block_lt (hj : j + 1 < d.count) :
    blockOf d.sizes j + (d.bytes j).length / 8 < 65536 := by
  have hblock := Datagram.block_lt_u16 hj
  rw [Datagram.next_block hj]
  omega

theorem within_without (hwithin : ∀ q ∈ l₁ ++ r :: l₂, q.hi ≤ d.count) (hj : j < d.count) :
    ∀ q ∈ l₁ ++ (r.without j ++ l₂), q.hi ≤ d.count := by
  intro q hq
  simp only [mem_append, Span.mem_without] at hq
  rcases hq with hq | (⟨-, rfl⟩ | ⟨-, rfl⟩) | hq
  · exact hwithin q (by simp [hq])
  · exact hj.le
  · exact hwithin r (by simp)
  · exact hwithin q (by simp [hq])

/-- Fixing the hole list takes the fragment out of the run it meets. A run that begins with the
fragment must have no predecessor, or one that is not at index 0. -/
theorem fixHoles_spec (hsep : Separated (l₁ ++ r :: l₂))
    (hwithin : ∀ q ∈ l₁ ++ r :: l₂, q.hi ≤ d.count) (h : Linked (descriptor s.payload) 0
      (l₁.map (node d) ++ (blockOf d.sizes r.lo, truncatedEnd d r j) :: l₂.map (node d)) 0)
    (hlo : r.lo ≤ j) (hhi : j ≤ r.hi) (hj : j < d.count)
    (hfirst : (l₁ = [] ∧ r.lo = j) ∨ s.firstHole =
      headIdx (l₁.map (node d) ++ (blockOf d.sizes r.lo, truncatedEnd d r j) :: l₂.map (node d)) 0)
    (hprev : r.lo = j → l₁ = [] ∨ lastIdx 0 (l₁.map (node d)) ≠ 0) :
    Relinked s (fixHoles s (blockOf d.sizes j) (d.bytes j).length (blockOf d.sizes r.lo)).1
        (l₁.map (node d) ++ (blockOf d.sizes r.lo, truncatedEnd d r j) :: l₂.map (node d))
        ((l₁ ++ (r.without j ++ l₂)).map (node d)) ∧
      ((fixHoles s (blockOf d.sizes j) (d.bytes j).length (blockOf d.sizes r.lo)).2 = true ↔
        l₁ ++ (r.without j ++ l₂) = []) := by
  have hlen := Datagram.length_sizes (d := d)
  have hrhi : r.hi ≤ d.count := hwithin r (by simp)
  have hasc : Ascending (l₁.map (node d) ++ node d r :: l₂.map (node d)) := by
    simpa using ascending_nodes hsep hwithin
  have hasc' : Ascending ((l₁ ++ (r.without j ++ l₂)).map (node d)) :=
    ascending_nodes (hsep.without hlo hhi) (within_without hwithin hj)
  have hcover := truncatedEnd_le_iff hj hrhi
  rw [← Datagram.end_eq hj] at hcover
  have hstart : blockOf d.sizes j ≤ blockOf d.sizes r.lo ↔ r.lo = j := by
    rw [← not_lt, d.cutOk.blockOf_lt_iff (by omega) (by omega)]
    omega
  have hblock := Datagram.block_lt_u16 hj
  have hnil : l₁ = [] → l₁.map (node d) = [] := fun hl => by rw [hl, map_nil]
  by_cases hl : r.lo = j <;> by_cases hh : r.hi ≤ j + 1
  · have hw : r.without j = [] := by
      rw [Span.without, if_neg (by omega), if_neg (by omega), append_nil]
    rw [hw, map_append]
    have hfix := fixHoles_covers h (hfirst.imp (fun hc => hnil hc.1) id) ((hprev hl).imp hnil id)
      (hstart.mpr hl) (hasc.set_val _) (hcover.mpr hh)
    refine ⟨hfix.1, hfix.2.trans ?_⟩
    simp
  · have hw : r.without j = [⟨j + 1, r.hi⟩] := by
      rw [Span.without, if_neg (by omega), if_pos (by omega), nil_append]
    have hnext : j + 1 < d.count := by omega
    rw [hw, singleton_append, map_append, map_cons, node_behind hnext] at hasc' ⊢
    have hfix := fixHoles_head h (hfirst.imp (fun hc => hnil hc.1) id) ((hprev hl).imp hnil id)
      (hstart.mpr hl) hasc' (Datagram.next_block_lt hnext) (mt hcover.mp hh)
    exact ⟨hfix.1, by simp [hfix.2]⟩
  · have hw : r.without j = [⟨r.lo, j⟩] := by
      rw [Span.without, if_pos (by omega), if_neg (by omega), append_nil]
    rw [hw, singleton_append, map_append, map_cons, node_of_lt hj] at hasc' ⊢
    have hfix := fixHoles_tail h (hfirst.resolve_left fun hc => hl hc.2) (hasc.set_val _) hblock
      (mt hstart.mp hl) (hcover.mpr hh)
    exact ⟨hfix.1, by simp [hfix.2]⟩
  · have hw : r.without j = [⟨r.lo, j⟩, ⟨j + 1, r.hi⟩] := by
      rw [Span.without, if_pos (by omega), if_pos (by omega), singleton_append]
    have hnext : j + 1 < d.count := by omega
    rw [hw, cons_append, singleton_append, map_append, map_cons, map_cons, node_of_lt hj,
      node_behind hnext] at hasc' ⊢
    have hfix := fixHoles_middle h (hfirst.resolve_left fun hc => hl hc.2) hasc' hblock
      (Datagram.next_block_lt hnext) (mt hstart.mp hl) (mt hcover.mp hh)
    exact ⟨hfix.1, by simp [hfix.2]⟩

/-- The last fragment sets the length of the datagram and the end of the hole that it meets. -/
theorem truncateHole_spec (h : Linked (descriptor s.payload) 0 ((l₁ ++ r :: l₂).map (node d)) 0)
    (hsep : Separated (l₁ ++ r :: l₂)) (hwithin : ∀ q ∈ l₁ ++ r :: l₂, q.hi ≤ d.count)
    (hj : j < d.count) :
    ∃ s₁, truncateHole s (d.fragment j) (blockOf d.sizes j) (d.bytes j).length
      (blockOf d.sizes r.lo) = s₁ ∧ s₁.firstHole = s.firstHole ∧ s₁.localip = s.localip ∧
      s₁.totalLen = (if j + 1 = d.count then d.sizes.sum else s.totalLen) ∧
        Linked (descriptor s₁.payload) 0 (l₁.map (node d) ++
        (blockOf d.sizes r.lo, truncatedEnd d r j) :: l₂.map (node d)) 0 ∧
      ∀ i, i / 8 ≠ blockOf d.sizes r.lo → s₁.payload i = s.payload i := by
  have hlen := Datagram.length_sizes (d := d)
  have hasc : Ascending (l₁.map (node d) ++ node d r :: l₂.map (node d)) := by
    simpa using ascending_nodes hsep hwithin
  rw [map_append] at h
  rw [truncateHole, truncatedEnd, Datagram.end_eq hj]
  by_cases hlast : j + 1 = d.count
  · rw [if_pos ((Datagram.fragment_mfrag hj).mpr hlast), if_pos hlast, if_pos hlast, hlast,
      ← hlen, startOf_length]
    refine ⟨_, rfl, rfl, rfl, rfl, ?_, fun i hi => setLastByte_apply _ _ hi⟩
    have hsum : d.sizes.sum ≤ 16464 := d.cutOk.fits
    rw [descriptor_setLastByte _ _ (by omega)]
    exact h.setVal_mid (fun z hz => (hasc.lt_of_append z hz _ mem_cons_self).ne)
      hasc.of_append.ne_head d.sizes.sum
  · rw [if_neg (mt (Datagram.fragment_mfrag hj).mp hlast), if_neg hlast, if_neg hlast]
    exact ⟨s, rfl, rfl, rfl, rfl, h, fun _ _ => rfl⟩

/-- Fragment `j` has been taken out of the runs `l`, which leaves `l'`. The packet is returned when
no run is left, and the buffer below the first run is not written. -/
structure Filled (d : Datagram) (l l' : List (Span ℕ)) (got : Set ℕ) (j : ℕ) (s : Defrag)
    (res : Defrag × Option Reassembled) : Prop where
  rep : Rep d l' (insert j got) res.1
  first : l' ≠ [] → res.1.firstHole = headIdx (l'.map (node d)) 0
  quiet : l' ≠ [] → res.2 = none
  done : l' = [] → res.2 = some ⟨res.1.localip, res.1.totalLen + ipHdrSize,
    load res.1.payload 0 res.1.totalLen⟩
  frame : ∀ b < d.count, (∀ q ∈ l, b ≤ q.lo) → ∀ i < 8 * blockOf d.sizes b, res.1.payload i = s.payload i

variable {l' : List (Span ℕ)} {res : Defrag × Option Reassembled}

theorem Filled.ne_nil (h : Filled d l l' got j s res) (hout : res.2 = none) : l' ≠ [] := by
  intro hnil
  rw [h.done hnil] at hout
  cases hout

/-- Fragments do not overlap. -/
theorem fragments_disjoint {a : ℕ} (hi : i < d.count) (hj : j < d.count) (hij : i ≠ j)
    (ha : startOf d.sizes i ≤ a) (hb : a < startOf d.sizes (i + 1)) :
    a < startOf d.sizes j ∨ startOf d.sizes (j + 1) ≤ a := by
  have hlen := Datagram.length_sizes (d := d)
  have hmono : ∀ {m n}, m ≤ n → n ≤ d.count → startOf d.sizes m ≤ startOf d.sizes n := by
    intro m n hmn hn
    rcases eq_or_lt_of_le hmn with rfl | hlt
    · exact le_rfl
    · exact (d.cutOk.startOf_lt hlt (by omega)).le
  rcases lt_or_gt_of_ne hij with hlt | hlt
  · exact .inl (hb.trans_le (hmono hlt (by omega)))
  · exact .inr ((hmono hlt (by omega)).trans ha)

theorem lo_covered (hsep : Separated l) (hr : r ∈ l) : Covers l r.lo :=
  ⟨r, hr, le_rfl, hsep.nonempty r hr⟩

theorem covered_lt (hwithin : ∀ r ∈ l, r.hi ≤ d.count) (hi : Covers l i) : i < d.count := by
  obtain ⟨r, hr, -, hlt⟩ := hi
  exact hlt.trans_le (hwithin r hr)

theorem lo_covered_append (h : Separated l) (h' : Separated l')
    (hcov : ∀ i, Covers l' i ↔ Covers l i ∧ i ≠ j) (hq : q ∈ l ++ l') : Covers l q.lo := by
  rcases mem_append.mp hq with hq | hq
  · exact lo_covered h hq
  · exact ((hcov q.lo).mp (lo_covered h' hq)).1

/-- Copying fragment `j` into the buffer, after the runs have become `l'`. -/
theorem Rep.fill {s' : Defrag} {mem : ℕ → UInt8} (hrep : Rep d l got s)
    (hj : j < d.count) (hsep : Separated l') (hcov : ∀ i, Covers l' i ↔ Covers l i ∧ i ≠ j)
    (hwithin : ∀ q ∈ l', q.hi ≤ d.count) (hlinked : Linked (descriptor mem) 0 (l'.map (node d)) 0)
    (hmem : ∀ i, (∀ q ∈ l ++ l', i / 8 ≠ blockOf d.sizes q.lo) → mem i = s.payload i)
    (hpayload : s'.payload = store mem (startOf d.sizes j) (d.bytes j))
    (hid : s'.localip.ipId = s.localip.ipId)
    (htotal : s'.totalLen = if j + 1 = d.count then d.sizes.sum else s.totalLen) :
    Rep d l' (insert j got) s' := by
  have hlen := Datagram.length_sizes (d := d)
  have hend := Datagram.start_succ hj
  refine ⟨hsep, hwithin, ?_, ?_, hid.trans hrep.ipId, ?_, ?_⟩
  · -- the descriptors that are left are in other fragments
    refine hlinked.congr fun z hz => descriptor_congr fun i hi => ?_
    obtain ⟨q, hq, rfl⟩ := mem_map.mp hz
    have hqlo := (hcov q.lo).mp (lo_covered hsep hq)
    have hqlt := covered_lt hwithin (lo_covered hsep hq)
    rw [hpayload]
    refine store_of_outside _ _ _ ?_
    by_contra hin
    exact d.cutOk.block_ne (by omega) (by omega) (Ne.symm hqlo.2) (by omega) (by omega) hi
  · rintro i (rfl | hi)
    · refine ⟨hj, fun hc => ((hcov i).mp hc).2 rfl, ?_⟩
      rw [hpayload]
      exact contains_store _ _ _
    obtain ⟨hilt, hinot, hcontains⟩ := hrep.stored i hi
    refine ⟨hilt, fun hc => hinot ((hcov i).mp hc).1, ?_⟩
    rcases eq_or_ne i j with rfl | hij
    · rw [hpayload]
      exact contains_store _ _ _
    refine hcontains.congr fun a ha hb => ?_
    rw [← Datagram.start_succ hilt] at hb
    have hout := fragments_disjoint hilt hj hij ha hb
    rw [hpayload, store_of_outside _ _ _ (by omega)]
    refine hmem a fun q hq => ?_
    have hq' := lo_covered_append hrep.separated hsep hcov hq
    have hne : i ≠ q.lo := fun he => hinot (he ▸ hq')
    have hqlt := covered_lt hrep.within hq'
    exact d.cutOk.block_ne (by omega) (by omega) hne ha hb
  · rw [htotal]
    split
    · rw [← startOf_length]
      have hpos := d.cutOk.startOf_lt (i := 0) (by omega) le_rfl
      omega
    · exact hrep.totalLen_ne
  · intro hgot
    rw [htotal]
    split
    · rfl
    · refine hrep.totalLen_eq (hgot.resolve_left ?_)
      omega

/-- Fragment `j` is taken out of the run that it meets. -/
theorem takeFragment_spec (hrep : Rep d (l₁ ++ r :: l₂) got s) (hlo : r.lo ≤ j)
    (hhi : j ≤ r.hi) (hj : j < d.count) (hfirst : (l₁ = [] ∧ r.lo = j) ∨
    s.firstHole = headIdx ((l₁ ++ r :: l₂).map (node d)) 0)
    (hprev : r.lo = j → l₁ = [] ∨ lastIdx 0 (l₁.map (node d)) ≠ 0) (hres :
      takeFragment s (d.fragment j) (blockOf d.sizes j) (d.bytes j).length (blockOf d.sizes r.lo) = res) :
    Filled d (l₁ ++ r :: l₂) (l₁ ++ (r.without j ++ l₂)) got j s res := by
  set l' := l₁ ++ (r.without j ++ l₂) with hnew
  have hcov : ∀ i, Covers l' i ↔ Covers (l₁ ++ r :: l₂) i ∧ i ≠ j := fun i =>
    hrep.separated.covers_without hlo hhi
  have hsep := hrep.separated.without hlo hhi
  obtain ⟨s₁, htrunc, hfirst₁, hip, htotal₁, hlinked, hmem⟩ :=
    truncateHole_spec hrep.linked hrep.separated hrep.within hj
  obtain ⟨hrel, hdone⟩ := fixHoles_spec hrep.separated hrep.within hlinked hlo hhi hj
    (hfirst.imp id fun hf => by rw [hfirst₁, hf]; cases l₁ <;> rfl) hprev
  rcases hfix : fixHoles s₁ (blockOf d.sizes j) (d.bytes j).length (blockOf d.sizes r.lo) with ⟨s₂, done⟩
  rw [hfix] at hrel hdone
  -- the blocks that were written hold descriptors of runs
  have hblocks : ∀ i, (∀ q ∈ (l₁ ++ r :: l₂) ++ l', i / 8 ≠ blockOf d.sizes q.lo) →
    s₂.payload i = s.payload i := by
    intro i hi
    refine (hrel.frame i fun x hx => ?_).trans (hmem i (hi r (by simp)))
    simp only [mem_append, mem_cons, mem_map] at hx
    rcases hx with (⟨q, hq, rfl⟩ | rfl | ⟨q, hq, rfl⟩) | ⟨q, hq, rfl⟩
    · exact hi q (by simp [hq])
    · exact hi r (by simp)
    · exact hi q (by simp [hq])
    · exact hi q (mem_append_right _ (by simpa [hnew] using hq))
  have hdata : load (d.fragment j).indata 0 (d.bytes j).length = d.bytes j :=
    (contains_ofList (d.bytes j) 0).load_eq
  have hstart : blockOf d.sizes j * 8 = startOf d.sizes j := by
    rw [d.cutOk.startOf_eq (Datagram.length_sizes ▸ hj), mul_comm]
  rw [← hres, takeFragment, htrunc, hfix, hdata, hstart]
  have hfill : ∀ s' : Defrag, s'.payload = store s₂.payload (startOf d.sizes j) (d.bytes j) →
      s'.localip.ipId = s₂.localip.ipId → s'.totalLen = s₂.totalLen →
      Rep d l' (insert j got) s' := by
    intro s' hpayload hid htotal
    refine hrep.fill hj hsep hcov (within_without hrep.within hj) hrel.linked hblocks hpayload ?_ ?_
    · rw [hid, hrel.localip, hip]
    · rw [htotal, hrel.totalLen, htotal₁]
  have hframe : ∀ b < d.count, (∀ q ∈ l₁ ++ r :: l₂, b ≤ q.lo) → ∀ i < 8 * blockOf d.sizes b,
      store s₂.payload (startOf d.sizes j) (d.bytes j) i = s.payload i := by
    intro b hb hle i hi
    have hblock : ∀ {k}, b ≤ k → k < d.count → blockOf d.sizes b ≤ blockOf d.sizes k := by
      intro k hbk hk
      rw [← not_lt, d.cutOk.blockOf_lt_iff (Datagram.length_sizes ▸ hk) (Datagram.length_sizes ▸ hb)]
      omega
    have hbj := hblock ((hle r (by simp)).trans hlo) hj
    rw [store_of_outside _ _ _ (by omega)]
    refine hblocks i fun q hq => ?_
    have hq' := lo_covered_append hrep.separated hsep hcov hq
    obtain ⟨q', hq'mem, hq'lo, -⟩ := id hq'
    have hbq := hblock ((hle q' hq'mem).trans hq'lo) (covered_lt hrep.within hq')
    omega
  have hne : l' ≠ [] → l'.map (node d) ≠ [] := mt map_eq_nil_iff.mp
  cases done with
  | false =>
    have hl' : l' ≠ [] := fun hnil => by simpa using hdone.mpr hnil
    exact ⟨hfill _ rfl rfl rfl, fun _ => hrel.first (hne hl'), fun _ => rfl,
      fun hnil => absurd hnil hl', hframe⟩
  | true =>
    have hl' := hdone.mp rfl
    exact ⟨hfill _ rfl rfl rfl, fun hc => absurd hl' hc, fun hc => absurd hl' hc, fun _ => rfl, hframe⟩

end Holes

end UBoot.Net
