import Mathlib.Data.List.DropRight
import Mathlib.Logic.Function.Basic

/-!
# The circular buffer

Reference: `lib/circbuf.c`. The pointers are offsets into the `totalsize` bytes of the buffer. The
buffer is a queue that drops its oldest bytes.
-/

namespace UBoot.Lib.Buf

open List Function

/-- `circbuf_t`. -/
structure Circbuf where
  size : ℕ
  totalsize : ℕ
  top : ℕ
  tail : ℕ
  data : ℕ → UInt8

section

variable (buf : Circbuf)

/-- `buf_init`, for memory with this content. -/
def bufInit (data : ℕ → UInt8) (size : ℕ) : Circbuf := ⟨0, size, 0, 0, data⟩

/-- A pointer that is moved on, back to the front at the end of the buffer. -/
def Circbuf.next (p : ℕ) : ℕ := if p + 1 = buf.totalsize then 0 else p + 1

/-- The loop of `buf_pop`: the bytes that are copied, and the pointer behind them. -/
def popLoop : ℕ → ℕ → List UInt8 × ℕ
  | 0, p => ([], p)
  | len + 1, p =>
    let r := popLoop len (buf.next p)
    (buf.data p :: r.1, r.2)

/-- `buf_pop`. -/
def bufPop (len : ℕ) : List UInt8 × Circbuf :=
  let len := if len > buf.size then buf.size else len
  let r := popLoop buf len buf.top
  (r.1, { buf with top := r.2, size := buf.size - len })

/-- A round of the loop of `buf_push`. -/
def pushByte (c : UInt8) : Circbuf :=
  let pushed := { buf with data := update buf.data buf.tail c, tail := buf.next buf.tail }
  if buf.size < buf.totalsize then { pushed with size := buf.size + 1 }
  else { pushed with top := buf.next buf.top }

/-- `buf_push`. -/
def bufPush (src : List UInt8) : Circbuf := src.foldl pushByte buf

/-- A call of `buf_push` or `buf_pop`. -/
inductive Call
  | push (src : List UInt8)
  | pop (len : ℕ)

/-- The bytes that a call returns, and the buffer after it. -/
def step : Call → List UInt8 × Circbuf
  | .push src => ([], bufPush buf src)
  | .pop len => bufPop buf len

/-- The queue of the last `n` bytes. -/
def queueStep (n : ℕ) (q : List UInt8) : Call → List UInt8 × List UInt8
  | .push src => ([], (q ++ src).rtake n)
  | .pop len => (q.take len, q.drop len)

/-- What the calls of a run return, and what they leave. -/
def run {σ : Type} (step : σ → Call → List UInt8 × σ) : σ → List Call → List (List UInt8) × σ
  | s, [] => ([], s)
  | s, call :: calls =>
    let r := step s call
    let rest := run step r.2 calls
    (r.1 :: rest.1, rest.2)

/-- The offset `i` bytes behind `top`. -/
def slot (n top i : ℕ) : ℕ := if top + i < n then top + i else top + i - n

end

/-- The buffer holds the queue. -/
structure Holds (n : ℕ) (buf : Circbuf) (q : List UInt8) : Prop where
  totalsize : buf.totalsize = n
  size : buf.size = q.length
  length_le : q.length ≤ n
  top_lt : buf.top < n
  tail : buf.tail = slot n buf.top q.length
  data : ∀ (i : ℕ) (hi : i < q.length), buf.data (slot n buf.top i) = q[i]

variable {n : ℕ} {buf : Circbuf} {q : List UInt8}

theorem Holds.tail_lt (h : Holds n buf q) : buf.tail < n := by
  have hlen := h.length_le
  have htop := h.top_lt
  rw [h.tail, slot]
  split <;> omega

theorem Holds.next_slot (h : Holds n buf q) {i : ℕ} (hi : i < n) :
    buf.next (slot n buf.top i) = slot n buf.top (i + 1) := by
  have htop := h.top_lt
  rw [Circbuf.next, h.totalsize, slot, slot]
  split <;> split <;> split <;> omega

theorem slot_inj {top i j : ℕ} (hi : i < n) (hj : j < n) (h : slot n top i = slot n top j) :
    i = j := by
  rw [slot, slot] at h
  split at h <;> split at h <;> omega

/-- The loop copies the oldest bytes. -/
theorem Holds.popLoop_eq (h : Holds n buf q) (len i : ℕ) (hi : i + len ≤ q.length) :
    popLoop buf len (slot n buf.top i) = ((q.drop i).take len, slot n buf.top (i + len)) := by
  induction len generalizing i with
  | zero => rw [popLoop, take_zero, Nat.add_zero]
  | succ len ih =>
    have hlt : i < q.length := by omega
    have hle := h.length_le
    rw [popLoop, h.next_slot (by omega), ih (i + 1) (by omega), h.data i hlt,
      drop_eq_getElem_cons hlt, take_succ_cons, Nat.add_right_comm, Nat.add_assoc]

theorem Holds.pop (h : Holds n buf q) (len : ℕ) :
    (bufPop buf len).1 = q.take len ∧ Holds n (bufPop buf len).2 (q.drop len) := by
  have hle := h.length_le
  have htop := h.top_lt
  obtain ⟨k, hk, hkeq⟩ : ∃ k, k = min len q.length ∧ (if len > buf.size then buf.size else len) = k := by
    refine ⟨_, rfl, ?_⟩
    rw [h.size]
    split <;> omega
  have hstart : slot n buf.top 0 = buf.top := if_pos htop
  have hloop := h.popLoop_eq k 0 (by omega)
  rw [hstart, drop_zero, Nat.zero_add] at hloop
  have htake : q.take k = q.take len := by rw [take_eq_take_iff]; omega
  have hdrop : (q.drop len).length = q.length - k := by rw [length_drop]; omega
  have hslot : ∀ i, i ≤ q.length - k → slot n (slot n buf.top k) i = slot n buf.top (k + i) := by
    intro i hi
    rw [slot, slot, slot]
    split <;> split <;> split <;> omega
  rw [bufPop, hkeq]
  rw [hloop, htake]
  refine ⟨rfl, h.totalsize, ?_, ?_, ?_, ?_, fun i hi => ?_⟩
  · rw [hdrop, ← h.size]
  · omega
  · show slot n buf.top k < n
    rw [slot]
    split <;> omega
  · rw [hdrop, hslot _ le_rfl, h.tail]
    congr 1
    omega
  · rw [hdrop] at hi
    rw [hslot i hi.le, h.data _ (by omega), getElem_drop]
    congr 1
    omega

theorem rtake_append_rtake (n : ℕ) (l l' : List UInt8) :
    (l.rtake n ++ l').rtake n = (l ++ l').rtake n := by
  rw [rtake, rtake, rtake, length_append, length_append, length_drop, ← drop_append_of_le_length,
    drop_drop]
  · congr 1
    omega
  · omega

variable (h : Holds n buf q)
include h

/-- A byte that fits is the newest one. -/
theorem Holds.push (hlt : q.length < n) (c : UInt8) :
    Holds n
      { buf with data := update buf.data buf.tail c, tail := buf.next buf.tail, size := buf.size + 1 }
      (q ++ [c]) := by
  have hlen : (q ++ [c]).length = q.length + 1 := length_append
  refine ⟨h.totalsize, by rw [hlen, ← h.size], by rwa [hlen], h.top_lt, ?_, fun i hi => ?_⟩
  · rw [h.tail, h.next_slot hlt, hlen]
  · show update buf.data buf.tail c (slot n buf.top i) = _
    rw [hlen] at hi
    rw [h.tail]
    rcases lt_or_eq_of_le (Nat.le_of_lt_succ hi) with hi' | rfl
    · rw [update_of_ne fun heq => absurd (slot_inj (by omega) hlt heq) (by omega), h.data i hi',
        getElem_append_left hi']
    · rw [update_self, getElem_concat_length rfl]

/-- In a full buffer a byte takes the place of the oldest one, as if that had been popped before. -/
theorem Holds.pushByte (c : UInt8) : Holds n (pushByte buf c) ((q ++ [c]).rtake n) := by
  have htop := h.top_lt
  have hle := h.length_le
  have hsize := h.size
  have hlen : (q ++ [c]).length = q.length + 1 := length_append
  rw [Buf.pushByte, rtake, hlen]
  by_cases hlt : q.length < n
  · rw [if_pos (by rwa [h.size, h.totalsize]), Nat.sub_eq_zero_of_le hlt, drop_zero]
    exact h.push hlt c
  have hpop : (bufPop buf 1).2 = { buf with top := buf.next buf.top, size := buf.size - 1 } := by
    rw [bufPop, if_neg (by omega)]
    rfl
  have hrest := (h.pop 1).2.push (by rw [length_drop]; omega) c
  rw [hpop, ← drop_append_of_le_length (by omega)] at hrest
  dsimp only at hrest
  rw [Nat.sub_add_cancel (by omega)] at hrest
  rw [if_neg (by rwa [h.size, h.totalsize]), show q.length + 1 - n = 1 by omega]
  exact hrest

theorem Holds.bufPush (src : List UInt8) : Holds n (bufPush buf src) ((q ++ src).rtake n) := by
  induction src generalizing buf q with
  | nil =>
    have hle := h.length_le
    rwa [append_nil, rtake, Nat.sub_eq_zero_of_le hle, drop_zero]
  | cons c src ih =>
    have hrest := ih (h.pushByte c)
    rwa [rtake_append_rtake, append_assoc] at hrest

theorem Holds.call (call : Call) :
    (step buf call).1 = (queueStep n q call).1 ∧ Holds n (step buf call).2 (queueStep n q call).2 := by
  cases call with
  | push src => exact ⟨rfl, h.bufPush src⟩
  | pop len => exact h.pop len

theorem Holds.run (calls : List Call) :
    (run step buf calls).1 = (run (queueStep n) q calls).1 ∧
      Holds n (run step buf calls).2 (run (queueStep n) q calls).2 := by
  induction calls generalizing buf q with
  | nil => exact ⟨rfl, h⟩
  | cons call calls ih =>
    obtain ⟨hout, hnext⟩ := h.call call
    obtain ⟨houts, hend⟩ := ih hnext
    exact ⟨congrArg₂ cons hout houts, hend⟩

omit h

/-- The buffer is the queue of the last `n` bytes: every call returns what the queue returns, `size`
is the length of the queue, and the pointers stay inside. -/
theorem run_refines_queue (data : ℕ → UInt8) (hn : 1 ≤ n) (calls : List Call) :
    (run step (bufInit data n) calls).1 = (run (queueStep n) [] calls).1 ∧
      (run step (bufInit data n) calls).2.size = (run (queueStep n) [] calls).2.length ∧
      (run step (bufInit data n) calls).2.top < n ∧ (run step (bufInit data n) calls).2.tail < n := by
  have hinit : Holds n (bufInit data n) [] :=
    ⟨rfl, rfl, Nat.zero_le n, hn, (if_pos hn).symm, fun i hi => absurd hi (Nat.not_lt_zero i)⟩
  obtain ⟨hout, hend⟩ := hinit.run calls
  exact ⟨hout, hend.size, hend.top_lt, hend.tail_lt⟩

theorem run_refines_queue_two : (run step (bufInit (fun _ => 0) 2) [.push [1, 2, 3], .pop 5]).1 =
    [[], [2, 3]] :=
  (run_refines_queue (fun _ => 0) (by decide) _).1

end UBoot.Lib.Buf
