import Mathlib.Logic.Function.Basic
import Mathlib.Data.List.Basic

/-!
# Doubly linked lists in an array of nodes

A doubly linked list threaded through an array: every node carries a value and the indices of its
two neighbours, and index 0 stands for "no neighbour". `Linked nodes p l n` says that the nodes hold
the list `l` of indices and values, entered from `p` and left to `n`. The lemmas say how the writes
that unlink, move or insert one node change the list.
-/

namespace UBoot.Common

open Function

/-- A node of a doubly linked list. -/
structure Node (α : Type*) where
  val : α
  next : ℕ
  prev : ℕ

variable {α : Type*} {nodes nodes' : ℕ → Node α} {l l₁ l₂ : List (ℕ × α)} {x y q : ℕ × α} {p n k : ℕ}

/-- The first index of a list, or the one behind it. -/
def headIdx : List (ℕ × α) → ℕ → ℕ
  | [], n => n
  | x :: _, _ => x.1

/-- The last index of a list, or the one before it. -/
def lastIdx : ℕ → List (ℕ × α) → ℕ
  | p, [] => p
  | _, x :: l => lastIdx x.1 l

theorem lastIdx_append : lastIdx p (l₁ ++ l₂) = lastIdx (lastIdx p l₁) l₂ := by
  induction l₁ generalizing p with
  | nil => rfl
  | cons y l ih => exact ih

/-- The nodes hold the list, between the indices `p` and `n`. -/
def Linked (nodes : ℕ → Node α) : ℕ → List (ℕ × α) → ℕ → Prop
  | _, [], _ => True
  | p, x :: l, n => nodes x.1 = ⟨x.2, headIdx l n, p⟩ ∧ Linked nodes x.1 l n

theorem linked_append :
    Linked nodes p (l₁ ++ l₂) n ↔ Linked nodes p l₁ (headIdx l₂ n) ∧ Linked nodes (lastIdx p l₁) l₂ n := by
  induction l₁ generalizing p with
  | nil => simp [Linked, lastIdx]
  | cons x l₁ ih =>
    have hhead : headIdx (l₁ ++ l₂) n = headIdx l₁ (headIdx l₂ n) := by cases l₁ <;> rfl
    rw [List.cons_append, Linked, Linked, ih, hhead, lastIdx, and_assoc]

/-- Only the nodes of the list matter. -/
theorem Linked.congr (h : Linked nodes p l n) (heq : ∀ x ∈ l, nodes' x.1 = nodes x.1) :
    Linked nodes' p l n := by
  induction l generalizing p with
  | nil => trivial
  | cons x l ih =>
    refine ⟨?_, ih h.2 (List.forall_mem_cons.mp heq).2⟩
    rw [heq x List.mem_cons_self, h.1]

/-! ### Writing one field -/

/-- Write the value of node `k`. -/
def setVal (nodes : ℕ → Node α) (k : ℕ) (v : α) : ℕ → Node α :=
  update nodes k { nodes k with val := v }

/-- Write the successor of node `k`. -/
def setNext (nodes : ℕ → Node α) (k n : ℕ) : ℕ → Node α :=
  update nodes k { nodes k with next := n }

/-- Write the predecessor of node `k`. -/
def setPrev (nodes : ℕ → Node α) (k p : ℕ) : ℕ → Node α :=
  update nodes k { nodes k with prev := p }

/-- A list that does not use a node does not notice a write to it. -/
theorem Linked.frame (h : Linked nodes p l n) (hk : ∀ x ∈ l, x.1 ≠ k) (v : Node α) :
    Linked (update nodes k v) p l n :=
  h.congr fun x hx => update_of_ne (hk x hx) v nodes

theorem Linked.setNext_last (h : Linked nodes p (l ++ [x]) n) (hx : ∀ y ∈ l, y.1 ≠ x.1) (m : ℕ) :
    Linked (setNext nodes x.1 m) p (l ++ [x]) m := by
  rw [linked_append] at h ⊢
  obtain ⟨hl, hlast, -⟩ := h
  refine ⟨hl.frame hx _, ?_, trivial⟩
  rw [setNext, update_self, hlast]
  rfl

theorem Linked.setPrev_head (h : Linked nodes p (x :: l) n) (hx : ∀ y ∈ l, y.1 ≠ x.1) (m : ℕ) :
    Linked (setPrev nodes x.1 m) m (x :: l) n := by
  obtain ⟨hfirst, hl⟩ := h
  refine ⟨?_, hl.frame hx _⟩
  rw [setPrev, update_self, hfirst]

theorem Linked.setVal_mid (h : Linked nodes p (l₁ ++ x :: l₂) n) (h₁ : ∀ y ∈ l₁, y.1 ≠ x.1)
    (h₂ : ∀ y ∈ l₂, y.1 ≠ x.1) (v : α) :
    Linked (setVal nodes x.1 v) p (l₁ ++ (x.1, v) :: l₂) n := by
  rw [linked_append] at h ⊢
  obtain ⟨hl₁, hx, hl₂⟩ := h
  refine ⟨hl₁.frame h₁ _, ?_, hl₂.frame h₂ _⟩
  rw [setVal, update_self, hx]

/-! ### Joining and splitting -/

/-- Two lists become one when the last node of the first and the first node of the second point to
each other. -/
theorem Linked.join {m : ℕ} (h₁ : Linked nodes p (l₁ ++ [q]) m) (h₂ : Linked nodes q.1 (y :: l₂) n)
    (hq : ∀ z ∈ l₁, z.1 ≠ q.1) (hq₂ : ∀ z ∈ y :: l₂, z.1 ≠ q.1) :
    Linked (setNext nodes q.1 y.1) p (l₁ ++ q :: y :: l₂) n := by
  rw [List.append_cons, linked_append, lastIdx_append]
  exact ⟨h₁.setNext_last hq y.1, h₂.frame hq₂ _⟩

/-- Splitting a node in two: its copy at `k` keeps the value and the successor, the node itself gets
a new value and is followed by the copy. -/
theorem Linked.split (h : Linked nodes p (l₁ ++ x :: l₂) n) (v : α) (hx₁ : ∀ z ∈ l₁, z.1 ≠ x.1)
    (hk₁ : ∀ z ∈ l₁, z.1 ≠ k) (hk₂ : ∀ z ∈ l₂, z.1 ≠ k) (hx₂ : ∀ z ∈ l₂, z.1 ≠ x.1) (hkx : x.1 ≠ k) :
    Linked (setPrev (setNext (setVal (update nodes k (nodes x.1)) x.1 v) x.1 k) k x.1) p
        (l₁ ++ [(x.1, v), (k, x.2)]) (headIdx l₂ n) ∧
      Linked (setPrev (setNext (setVal (update nodes k (nodes x.1)) x.1 v) x.1 k) k x.1) x.1 l₂ n := by
  rw [linked_append] at h
  obtain ⟨hl₁, hx, hl₂⟩ := h
  refine ⟨linked_append.mpr ⟨?_, ?_, ?_, trivial⟩, ?_⟩
  · exact (((hl₁.frame hk₁ _).frame hx₁ _).frame hx₁ _).frame hk₁ _
  · simp [setPrev, setNext, setVal, hkx, hx, headIdx]
  · simp [setPrev, setNext, setVal, hkx.symm, hx, headIdx]
  · exact (((hl₂.frame hk₂ _).frame hx₂ _).frame hx₂ _).frame hk₂ _

end UBoot.Common
