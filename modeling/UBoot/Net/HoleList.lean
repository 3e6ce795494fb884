import UBoot.Common.LinkedNodes
import UBoot.Net.Defragment

/-!
# The list of holes

The descriptors in the payload buffer are the nodes of a doubly linked list. Each of the four shapes
in which a fragment meets a hole changes this list in one place. The code tells the first hole by
its missing predecessor, so a hole whose predecessor is at index 0 is treated as the first one and
the list then begins with it.
-/

namespace UBoot.Net

open UBoot.Common List Function

variable {mem : ℕ → UInt8} {s : Defrag} {l l₁ l₂ : List (ℕ × ℕ)} {x q : ℕ × ℕ}
  {k v newh : ℕ} {mem' : ℕ → UInt8} {a b i p : ℕ}

/-! ### Descriptors as nodes -/

theorem u16At_congr (h₀ : mem' b = mem a) (h₁ : mem' (b + 1) = mem (a + 1)) :
    u16At mem' b = u16At mem a := by
  show ofLe [mem' b, mem' (b + 1)] = ofLe [mem a, mem (a + 1)]
  rw [h₀, h₁]

theorem u16At_lt (mem : ℕ → UInt8) (a : ℕ) : u16At mem a < 65536 := by
  have h := ofLe_lt (load mem a 2)
  rwa [length_load] at h

theorem u16At_store_self (mem : ℕ → UInt8) (a : ℕ) (hv : v < 65536) :
    u16At (store mem a (leBytes 2 v)) a = v :=
  (contains_store mem a (leBytes 2 v)).ofLe_load hv

theorem u16At_store_of_outside (mem : ℕ → UInt8) (c : List UInt8)
    (h : a + 2 ≤ b ∨ b + c.length ≤ a) : u16At (store mem b c) a = u16At mem a :=
  u16At_congr (store_of_outside mem b c (by omega)) (store_of_outside mem b c (by omega))

/-- The descriptor in block `k` as a node. -/
def descriptor (mem : ℕ → UInt8) (k : ℕ) : Node ℕ :=
  ⟨lastByte mem k, nextHole mem k, prevHole mem k⟩

/-- A write that stays off the block of a descriptor leaves it alone. -/
theorem descriptor_congr (h : ∀ i, i / 8 = k → mem' i = mem i) :
    descriptor mem' k = descriptor mem k := by
  have hfield : ∀ o, o ≤ 6 → u16At mem' (8 * k + o) = u16At mem (8 * k + o) := fun o ho =>
    u16At_congr (h _ (by omega)) (h _ (by omega))
  rw [descriptor, nextHole, prevHole, hfield 2 (by omega), hfield 4 (by omega)]
  exact congrArg (Node.mk · _ _) (hfield 0 (by omega))

/-! ### Writes to a descriptor -/

section

variable (mem)

theorem setLastByte_apply (v : ℕ) (h : i / 8 ≠ k) :
    setLastByte mem k v i = mem i := store_of_outside mem _ _ (by simp; omega)

theorem setNextHole_apply (v : ℕ) (h : i / 8 ≠ k) :
    setNextHole mem k v i = mem i := store_of_outside mem _ _ (by simp; omega)

theorem setPrevHole_apply (v : ℕ) (h : i / 8 ≠ k) :
    setPrevHole mem k v i = mem i := store_of_outside mem _ _ (by simp; omega)

theorem copyHole_apply (h : ℕ) (hi : i / 8 ≠ k) :
    copyHole mem k h i = mem i := store_of_outside mem _ _ (by simp; omega)

/-- A write to the block of a descriptor changes this node. -/
theorem descriptor_eq_update {node : Node ℕ} (hself : descriptor mem' k = node)
    (hne : ∀ i, i / 8 ≠ k → mem' i = mem i) : descriptor mem' = update (descriptor mem) k node := by
  funext i
  rcases eq_or_ne i k with rfl | hi
  · rw [update_self, hself]
  · rw [update_of_ne hi]
    exact descriptor_congr fun j hj => hne j (by omega)

theorem descriptor_setLastByte (k : ℕ) (hv : v < 65536) :
    descriptor (setLastByte mem k v) = setVal (descriptor mem) k v := by
  refine descriptor_eq_update mem ?_ fun i hi => setLastByte_apply mem v hi
  rw [descriptor, lastByte, nextHole, prevHole, setLastByte, u16At_store_self mem _ hv,
    u16At_store_of_outside _ _ (by simp), u16At_store_of_outside _ _ (by simp)]
  rfl

theorem descriptor_setNextHole (k : ℕ) (hv : v < 65536) :
    descriptor (setNextHole mem k v) = setNext (descriptor mem) k v := by
  refine descriptor_eq_update mem ?_ fun i hi => setNextHole_apply mem v hi
  rw [descriptor, lastByte, nextHole, prevHole, setNextHole, u16At_store_self mem _ hv,
    u16At_store_of_outside _ _ (by simp), u16At_store_of_outside _ _ (by simp)]
  rfl

theorem descriptor_setPrevHole (k : ℕ) (hv : v < 65536) :
    descriptor (setPrevHole mem k v) = setPrev (descriptor mem) k v := by
  refine descriptor_eq_update mem ?_ fun i hi => setPrevHole_apply mem v hi
  rw [descriptor, lastByte, nextHole, prevHole, setPrevHole, u16At_store_self mem _ hv,
    u16At_store_of_outside _ _ (by simp), u16At_store_of_outside _ _ (by simp)]
  rfl

theorem descriptor_copyHole (k h : ℕ) :
    descriptor (copyHole mem k h) = update (descriptor mem) k (descriptor mem h) := by
  have hbyte : ∀ i, i < 8 → copyHole mem k h (8 * k + i) = mem (8 * h + i) := by
    intro i hi
    have hc := contains_iff.mp (contains_store mem (8 * k) (load mem (8 * h) 8)) i (by simpa using hi)
    simpa [load, copyHole] using hc
  have hfield : ∀ o, o ≤ 6 → u16At (copyHole mem k h) (8 * k + o) = u16At mem (8 * h + o) := fun o ho =>
    u16At_congr (hbyte o (by omega)) (hbyte (o + 1) (by omega))
  refine descriptor_eq_update mem ?_ fun i hi => copyHole_apply mem h hi
  rw [descriptor, nextHole, prevHole, hfield 2 (by omega), hfield 4 (by omega)]
  exact congrArg (Node.mk · _ _) (hfield 0 (by omega))

end

/-! ### The four shapes -/

/-- The indices of the list increase. -/
def Ascending (l : List (ℕ × ℕ)) : Prop := l.Pairwise fun x y => x.1 < y.1

theorem Ascending.head_lt (h : Ascending (x :: l)) : ∀ y ∈ l, x.1 < y.1 := (pairwise_cons.mp h).1

theorem Ascending.tail (h : Ascending (x :: l)) : Ascending l := (pairwise_cons.mp h).2

theorem Ascending.of_append (h : Ascending (l₁ ++ l₂)) : Ascending l₂ := (pairwise_append.mp h).2.1

theorem Ascending.lt_of_append (h : Ascending (l₁ ++ l₂)) : ∀ x ∈ l₁, ∀ y ∈ l₂, x.1 < y.1 :=
  (pairwise_append.mp h).2.2

theorem Ascending.ne_of_append (h : Ascending (l₁ ++ x :: l₂)) : ∀ z ∈ l₁, z.1 ≠ x.1 := fun z hz =>
  Nat.ne_of_lt (h.lt_of_append z hz x mem_cons_self)

theorem Ascending.ne_head (h : Ascending (x :: l)) : ∀ y ∈ l, y.1 ≠ x.1 := fun y hy =>
  Nat.ne_of_gt (h.head_lt y hy)

theorem Ascending.set_val (h : Ascending (l₁ ++ x :: l₂)) (v : ℕ) :
    Ascending (l₁ ++ (x.1, v) :: l₂) := by
  simpa [Ascending, pairwise_append] using h

/-- The list `l` has become `l'`; only blocks of the two lists were written. -/
structure Relinked (s s' : Defrag) (l l' : List (ℕ × ℕ)) : Prop where
  linked : Linked (descriptor s'.payload) 0 l' 0
  first : l' ≠ [] → s'.firstHole = headIdx l' 0
  localip : s'.localip = s.localip
  totalLen : s'.totalLen = s.totalLen
  frame : ∀ i, (∀ x ∈ l ++ l', i / 8 ≠ x.1) → s'.payload i = s.payload i

/-- Removing a hole without predecessor. -/
theorem removeHole_first (h : Linked (descriptor s.payload) 0 (x :: l) 0)
    (hasc : Ascending (x :: l)) :
    Relinked s (removeHole s x.1).1 (x :: l) l ∧ ((removeHole s x.1).2 = true ↔ l = []) := by
  have hprev : prevHole s.payload x.1 = 0 := congrArg Node.prev h.1
  have hnext : nextHole s.payload x.1 = headIdx l 0 := congrArg Node.next h.1
  rw [removeHole]
  rcases l with _ | ⟨y, l⟩
  · simp only [hprev, hnext, headIdx]
    exact ⟨⟨h.2, fun hne => absurd rfl hne, rfl, rfl, fun _ _ => rfl⟩, by simp⟩
  have hy0 : y.1 ≠ 0 := Nat.ne_zero_of_lt (hasc.head_lt y mem_cons_self)
  simp only [hprev, hnext, headIdx, hy0, and_false, if_false, if_true]
  refine ⟨⟨?_, fun _ => rfl, rfl, rfl, fun i hi => ?_⟩, by simp⟩
  · rw [descriptor_setPrevHole _ _ (by decide)]
    exact h.2.setPrev_head hasc.tail.ne_head 0
  · exact setPrevHole_apply _ _ (hi y (by simp))

/-- The head of a list does not depend on what is behind one of its elements. -/
theorem headIdx_append_cons (l₁ l₂ l₃ : List (ℕ × ℕ)) (q : ℕ × ℕ) :
    headIdx (l₁ ++ q :: l₂) 0 = headIdx (l₁ ++ q :: l₃) 0 := by
  cases l₁ <;> rfl

/-- Removing a hole whose predecessor is `q`. -/
theorem removeHole_of_prev (h : Linked (descriptor s.payload) 0 (l₁ ++ q :: x :: l₂) 0)
    (hfirst : s.firstHole = headIdx (l₁ ++ q :: x :: l₂) 0) (hasc : Ascending (l₁ ++ q :: x :: l₂))
    (hq0 : q.1 ≠ 0) :
    Relinked s (removeHole s x.1).1 (l₁ ++ q :: x :: l₂) (l₁ ++ q :: l₂) ∧
      (removeHole s x.1).2 = false := by
  obtain ⟨hl₁, hq, hx, hl₂⟩ := linked_append.mp h
  have hprev : prevHole s.payload x.1 = q.1 := congrArg Node.prev hx
  have hnext : nextHole s.payload x.1 = headIdx l₂ 0 := congrArg Node.next hx
  have hq₁ := hasc.ne_of_append
  have hlast : Linked (descriptor s.payload) 0 (l₁ ++ [q]) x.1 := linked_append.mpr ⟨hl₁, hq, trivial⟩
  have hq65 : q.1 < 65536 := by
    rw [← hprev]
    exact u16At_lt _ _
  rw [headIdx_append_cons _ _ l₂] at hfirst
  rw [removeHole]
  cases l₂ with
  | nil =>
    simp only [hprev, hnext, headIdx, hq0, and_true, if_false, if_true]
    refine ⟨?_, fun _ => hfirst, rfl, rfl, fun i hi => setNextHole_apply _ _ (hi q (by simp))⟩
    rw [descriptor_setNextHole _ _ (by decide)]
    exact hlast.setNext_last hq₁ 0
  | cons y l₂ =>
    have hasc₂ : Ascending (x :: y :: l₂) := hasc.of_append.tail
    have hy0 : y.1 ≠ 0 := Nat.ne_zero_of_lt (hasc₂.head_lt y mem_cons_self)
    have hy65 : y.1 < 65536 := by
      rw [show y.1 = headIdx (y :: l₂) 0 from rfl, ← hnext]
      exact u16At_lt _ _
    -- the successor is another block, so the fields of the hole are read again unchanged
    have hagain : descriptor (setPrevHole s.payload y.1 q.1) x.1 = descriptor s.payload x.1 := by
      rw [descriptor_setPrevHole _ _ hq65]
      exact update_of_ne (hasc₂.ne_head y mem_cons_self).symm _ _
    have hprev' : prevHole (setPrevHole s.payload y.1 q.1) x.1 = q.1 :=
        (congrArg Node.prev hagain).trans hprev
    have hnext' : nextHole (setPrevHole s.payload y.1 q.1) x.1 = y.1 :=
        (congrArg Node.next hagain).trans hnext
    simp only [hprev, hnext, headIdx, hq0, hy0, and_self, if_false, hprev', hnext', and_true]
    refine ⟨?_, fun _ => hfirst, rfl, rfl, fun i hi => ?_⟩
    · rw [descriptor_setNextHole _ _ hy65, descriptor_setPrevHole _ _ hq65]
      refine Linked.join (hlast.frame ?_ _) (hl₂.setPrev_head hasc₂.tail.ne_head q.1) hq₁ ?_
      · rw [append_cons] at hasc
        exact fun z hz => Nat.ne_of_lt (hasc.lt_of_append z hz y (by simp))
      · exact (forall_mem_cons.mp hasc.of_append.ne_head).2
    · exact (setNextHole_apply _ _ (hi q (by simp))).trans (setPrevHole_apply _ _ (hi y (by simp)))

/-- Shortening a hole. -/
theorem shortenHole (h : Linked (descriptor s.payload) 0 (l₁ ++ x :: l₂) 0)
    (hfirst : s.firstHole = headIdx (l₁ ++ x :: l₂) 0) (hasc : Ascending (l₁ ++ x :: l₂))
    (hv : v < 65536) :
    Relinked s { s with payload := setLastByte s.payload x.1 v } (l₁ ++ x :: l₂)
      (l₁ ++ (x.1, v) :: l₂) := by
  refine ⟨?_, fun _ => ?_, rfl, rfl, fun i hi => setLastByte_apply _ _ (hi x (by simp))⟩
  · rw [descriptor_setLastByte _ _ hv]
    exact h.setVal_mid hasc.ne_of_append hasc.of_append.ne_head v
  · rw [hfirst]
    cases l₁ <;> rfl

/-- After `pointBack` the successor of a hole knows it. -/
theorem pointBack_linked (hnext : nextHole mem k = headIdx l 0)
    (h : Linked (descriptor mem) p l 0) (hasc : Ascending l) (hl : ∀ y ∈ l, k < y.1) (hk : k < 65536) :
    Linked (descriptor (pointBack mem k)) k l 0 ∧ ∀ i, (∀ y ∈ l, i / 8 ≠ y.1) →
      pointBack mem k i = mem i := by
  rw [pointBack, hnext]
  cases l with
  | nil => exact ⟨trivial, fun _ _ => rfl⟩
  | cons y l =>
    have hy0 : headIdx (y :: l) 0 ≠ 0 := Nat.ne_zero_of_lt (hl y mem_cons_self)
    rw [if_pos hy0]
    refine ⟨?_, fun i hi => setPrevHole_apply _ _ (hi y mem_cons_self)⟩
    rw [descriptor_setPrevHole _ _ hk]
    exact h.setPrev_head hasc.ne_head k

/-- A hole whose descriptor was copied to `newh` is listed there. -/
theorem copied_linked (h : Linked (descriptor mem) p (x :: l) 0)
    (hasc : Ascending ((newh, x.2) :: l)) (hnew : newh < 65536) :
    Linked (descriptor (pointBack (copyHole mem newh x.1) newh)) p ((newh, x.2) :: l) 0 ∧
      ∀ i, (∀ y ∈ (newh, x.2) :: l, i / 8 ≠ y.1) → pointBack (copyHole mem newh x.1) newh i = mem i := by
  have hcopy : descriptor (copyHole mem newh x.1) newh = ⟨x.2, headIdx l 0, p⟩ := by
    rw [descriptor_copyHole, update_self, h.1]
  have hl : Linked (descriptor (copyHole mem newh x.1)) x.1 l 0 := by
    rw [descriptor_copyHole]
    exact h.2.frame hasc.ne_head _
  obtain ⟨hback, hframe⟩ := pointBack_linked (congrArg Node.next hcopy) hl hasc.tail hasc.head_lt hnew
  refine ⟨⟨?_, hback⟩, fun i hi => ?_⟩
  · rw [← hcopy]
    refine descriptor_congr fun i hi => hframe i fun y hy => ?_
    rw [hi]
    exact (hasc.ne_head y hy).symm
  · rw [hframe i (forall_mem_cons.mp hi).2, copyHole_apply mem _ (hi _ mem_cons_self)]

/-- Moving a hole without predecessor. -/
theorem moveHole_first (h : Linked (descriptor s.payload) 0 (x :: l) 0)
    (hasc : Ascending ((newh, x.2) :: l)) (hnew : newh < 65536) :
    Relinked s (moveHole s x.1 newh) (x :: l) ((newh, x.2) :: l) := by
  obtain ⟨hlinked, hframe⟩ := copied_linked h hasc hnew
  have hprev : prevHole (pointBack (copyHole s.payload newh x.1) newh) newh = 0 :=
    congrArg Node.prev hlinked.1
  rw [moveHole, hprev]
  exact ⟨hlinked, fun _ => rfl, rfl, rfl, fun i hi => hframe i fun y hy => hi y (by simp [hy])⟩

/-- Moving a hole whose predecessor is `q`. -/
theorem moveHole_of_prev (h : Linked (descriptor s.payload) 0 (l₁ ++ q :: x :: l₂) 0)
    (hfirst : s.firstHole = headIdx (l₁ ++ q :: x :: l₂) 0)
    (hasc : Ascending (l₁ ++ q :: (newh, x.2) :: l₂)) (hnew : newh < 65536) (hq0 : q.1 ≠ 0) :
    Relinked s (moveHole s x.1 newh) (l₁ ++ q :: x :: l₂) (l₁ ++ q :: (newh, x.2) :: l₂) := by
  obtain ⟨hl₁, hq, hx⟩ := linked_append.mp h
  have hlast : Linked (descriptor s.payload) 0 (l₁ ++ [q]) x.1 := linked_append.mpr ⟨hl₁, hq, trivial⟩
  obtain ⟨hlinked, hframe⟩ := copied_linked hx hasc.of_append.tail hnew
  have hprev : prevHole (pointBack (copyHole s.payload newh x.1) newh) newh = q.1 :=
    congrArg Node.prev hlinked.1
  have hq₁ := hasc.ne_of_append
  rw [moveHole, hprev]
  simp only [ne_eq, hq0, not_false_eq_true, if_true]
  refine ⟨?_, fun _ => ?_, rfl, rfl, fun i hi => ?_⟩
  · rw [descriptor_setNextHole _ _ hnew]
    refine Linked.join (hlast.congr fun z hz => ?_) hlinked hq₁ hasc.of_append.ne_head
    -- the blocks before the hole are not written
    refine descriptor_congr fun i hi => hframe i fun y hy => ?_
    rw [hi]
    rw [append_cons] at hasc
    exact Nat.ne_of_lt (hasc.lt_of_append z hz y hy)
  · rw [headIdx_append_cons _ _ (x :: l₂)]
    exact hfirst
  · refine (setNextHole_apply _ _ (hi q (by simp))).trans (hframe i fun y hy => hi y ?_)
    rcases mem_cons.mp hy with rfl | hy
    · simp
    · simp [hy]

/-- Splitting a hole. -/
theorem splitHole_relinked (h : Linked (descriptor s.payload) 0 (l₁ ++ x :: l₂) 0)
    (hfirst : s.firstHole = headIdx (l₁ ++ x :: l₂) 0)
    (hasc : Ascending (l₁ ++ (x.1, v) :: (newh, x.2) :: l₂)) (hv : v < 65536) (hnew : newh < 65536) :
    Relinked s (splitHole s x.1 v newh) (l₁ ++ x :: l₂) (l₁ ++ (x.1, v) :: (newh, x.2) :: l₂) := by
  have hasc₂ : Ascending ((newh, x.2) :: l₂) := hasc.of_append.tail
  have hx : x.1 < newh := hasc.of_append.head_lt (newh, x.2) mem_cons_self
  have hbefore : ∀ z ∈ l₁, z.1 < x.1 := fun z hz => hasc.lt_of_append z hz (x.1, v) mem_cons_self
  obtain ⟨hfront, hback⟩ := h.split v (fun z hz => Nat.ne_of_lt (hbefore z hz))
    (fun z hz => Nat.ne_of_lt (Nat.lt_trans (hbefore z hz) hx)) hasc₂.ne_head
    (fun z hz => Nat.ne_of_gt (Nat.lt_trans hx (hasc₂.head_lt z hz))) (Nat.ne_of_lt hx)
  rw [← descriptor_copyHole, ← descriptor_setLastByte _ _ hv, ← descriptor_setNextHole _ _ hnew,
    ← descriptor_setPrevHole _ _ (Nat.lt_trans hx hnew)] at hfront hback
  have hnext := congrArg Node.next (linked_append.mp hfront).2.2.1
  obtain ⟨hbehind, hframe⟩ := pointBack_linked hnext hback hasc₂.tail hasc₂.head_lt hnew
  rw [splitHole]
  refine ⟨?_, fun _ => ?_, rfl, rfl, fun i hi => ?_⟩
  · rw [show l₁ ++ (x.1, v) :: (newh, x.2) :: l₂ = (l₁ ++ [(x.1, v), (newh, x.2)]) ++ l₂ by simp] at hasc ⊢
    rw [linked_append, lastIdx_append]
    refine ⟨hfront.congr fun z hz => descriptor_congr fun i hi => hframe i fun y hy => ?_, hbehind⟩
    rw [hi]
    exact Nat.ne_of_lt (hasc.lt_of_append z hz y hy)
  · rw [hfirst]
    cases l₁ <;> rfl
  · have hi₂ : ∀ y ∈ l₂, i / 8 ≠ y.1 := fun y hy => hi y (by simp [hy])
    have hix : i / 8 ≠ x.1 := hi x (by simp)
    have hinew : i / 8 ≠ newh := hi (newh, x.2) (by simp)
    refine (hframe i hi₂).trans ?_
    rw [setPrevHole_apply _ _ hinew, setNextHole_apply _ _ hix, setLastByte_apply _ _ hix,
      copyHole_apply _ _ hinew]

/-! ### Fixing the list -/

section Fix

variable {offset8 len : ℕ} (h : Linked (descriptor s.payload) 0 (l₁ ++ x :: l₂) 0)

include h

theorem lastByte_eq : lastByte s.payload x.1 = x.2 := congrArg Node.val (linked_append.mp h).2.1

section

variable (hfirst : l₁ = [] ∨ s.firstHole = headIdx (l₁ ++ x :: l₂) 0)
  (hprev : l₁ = [] ∨ lastIdx 0 l₁ ≠ 0) (hlo : offset8 ≤ x.1)

include hfirst hprev hlo

/-- A fragment that covers a hole removes it. -/
theorem fixHoles_covers (hasc : Ascending (l₁ ++ x :: l₂)) (hhi : x.2 ≤ offset8 * 8 + len) :
    Relinked s (fixHoles s offset8 len x.1).1 (l₁ ++ x :: l₂) (l₁ ++ l₂) ∧
      ((fixHoles s offset8 len x.1).2 = true ↔ l₁ ++ l₂ = []) := by
  rw [fixHoles, lastByte_eq h, if_pos ⟨hlo, hhi⟩]
  rcases eq_nil_or_concat' l₁ with rfl | ⟨l, q, rfl⟩
  · exact removeHole_first h hasc
  rw [lastIdx_append] at hprev
  have hq0 : q.1 ≠ 0 := hprev.resolve_left (by simp)
  simp only [append_assoc] at h hfirst hasc ⊢
  obtain ⟨hrel, hdone⟩ := removeHole_of_prev h (hfirst.resolve_left (by simp)) hasc hq0
  exact ⟨hrel, by simp [hdone]⟩

/-- A fragment that covers the first part of a hole moves it behind the fragment. -/
theorem fixHoles_head (hasc : Ascending (l₁ ++ (offset8 + len / 8, x.2) :: l₂))
    (hnew : offset8 + len / 8 < 65536) (hhi : ¬ x.2 ≤ offset8 * 8 + len) :
    Relinked s (fixHoles s offset8 len x.1).1 (l₁ ++ x :: l₂)
      (l₁ ++ (offset8 + len / 8, x.2) :: l₂) ∧ (fixHoles s offset8 len x.1).2 = false := by
  rw [fixHoles, lastByte_eq h, if_neg fun hc => hhi hc.2, if_neg hhi, if_pos hlo]
  refine ⟨?_, rfl⟩
  rcases eq_nil_or_concat' l₁ with rfl | ⟨l, q, rfl⟩
  · exact moveHole_first h hasc hnew
  · rw [lastIdx_append] at hprev
    have hq0 : q.1 ≠ 0 := hprev.resolve_left (by simp)
    simp only [append_assoc] at h hfirst hasc ⊢
    exact moveHole_of_prev h (hfirst.resolve_left (by simp)) hasc hnew hq0

end

variable (hfirst : s.firstHole = headIdx (l₁ ++ x :: l₂) 0)
include hfirst

/-- A fragment that covers the last part of a hole shortens it. -/
theorem fixHoles_tail (hasc : Ascending (l₁ ++ x :: l₂)) (hstart : offset8 * 8 < 65536)
    (hlo : ¬ offset8 ≤ x.1) (hhi : x.2 ≤ offset8 * 8 + len) :
    Relinked s (fixHoles s offset8 len x.1).1 (l₁ ++ x :: l₂) (l₁ ++ (x.1, offset8 * 8) :: l₂) ∧
      (fixHoles s offset8 len x.1).2 = false := by
  rw [fixHoles, lastByte_eq h, if_neg fun hc => hlo hc.1, if_pos hhi]
  exact ⟨shortenHole h hfirst hasc hstart, rfl⟩

/-- A fragment in the middle of a hole splits it. -/
theorem fixHoles_middle (hasc : Ascending
    (l₁ ++ (x.1, offset8 * 8) :: (offset8 + len / 8, x.2) :: l₂))
    (hstart : offset8 * 8 < 65536) (hnew : offset8 + len / 8 < 65536) (hlo : ¬ offset8 ≤ x.1)
    (hhi : ¬ x.2 ≤ offset8 * 8 + len) :
    Relinked s (fixHoles s offset8 len x.1).1 (l₁ ++ x :: l₂)
        (l₁ ++ (x.1, offset8 * 8) :: (offset8 + len / 8, x.2) :: l₂) ∧
      (fixHoles s offset8 len x.1).2 = false := by
  rw [fixHoles, lastByte_eq h, if_neg fun hc => hhi hc.2, if_neg hhi, if_neg hlo]
  exact ⟨splitHole_relinked h hfirst hasc hstart hnew, rfl⟩

end Fix

end UBoot.Net
