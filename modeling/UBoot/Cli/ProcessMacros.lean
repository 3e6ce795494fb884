import UBoot.Common.Escape
import Mathlib.Data.UInt

/-!
# Variables in a command line

Reference: `common/cli_simple.c::cli_simple_process_macros`.

A line is copied; a variable in braces is replaced by its value, and a backslash or quotes keep text
as it is. Only the character before is remembered, and after an escaped backslash that is a
backslash as well: the next one is not taken for an escape then.
-/

namespace UBoot.Cli

open UBoot.Common List

/-- `state`. -/
inductive Scan where
  | text
  | dollar
  /-- the input from `varname_start` on -/
  | name (start : List UInt8)
  | quoted
deriving DecidableEq

/-- The variables of the loop; `output` is what has been written. -/
structure Macros where
  prev : UInt8
  state : Scan
  output : List UInt8
  outputcnt : ℕ
deriving DecidableEq

variable (env : List UInt8 → Option (List UInt8))

/-- A character is written. -/
def Macros.put (m : Macros) (c : UInt8) : Macros :=
  { m with output := m.output ++ [c], outputcnt := m.outputcnt - 1 }

/-- The `switch` over the states, with the input behind the character. -/
def Macros.char (m : Macros) (c : UInt8) (input : List UInt8) : Macros :=
  match m.state with
  | .text =>
    if c = 39 ∧ m.prev ≠ 92 then { m with state := .quoted }
    else if c = 36 ∧ m.prev ≠ 92 then { m with state := .dollar }
    else m.put c
  | .dollar =>
    if c = 40 ∨ c = 123 then { m with state := .name input }
    else
      let m := { m with state := .text }.put 36
      if m.outputcnt ≠ 0 then m.put c else m
  | .name start =>
    if c = 41 ∨ c = 125 then
      let envval := (env (start.take (start.length - input.length - 1))).getD []
      { m with state := .text, output := m.output ++ envval.take m.outputcnt,
               outputcnt := m.outputcnt - envval.length }
    else m
  | .quoted => if c = 39 ∧ m.prev ≠ 92 then { m with state := .text } else m.put c

/-- The loop of `cli_simple_process_macros`. -/
def macrosLoop : List UInt8 → Macros → Macros
  | [], m => m
  | c :: input, m =>
    if m.outputcnt = 0 then m
    else if m.state ≠ .quoted ∧ c = 92 ∧ m.prev ≠ 92 then
      -- remove one level of escape characters
      match input with
      | [] => m
      | d :: input => macrosLoop input { { m with prev := c }.char env d input with prev := d }
    else macrosLoop input { m.char env c input with prev := c }

/-- `cli_simple_process_macros`, with `CONFIG_SYS_CBSIZE`. -/
def cliSimpleProcessMacros (cbsize : ℕ) (input : List UInt8) : List UInt8 :=
  let m := macrosLoop env input ⟨0, .text, [], cbsize⟩
  if m.outputcnt ≠ 0 then m.output else m.output.dropLast

/-- The next state, and what a character adds to an output without a limit. -/
def Scan.step (state : Scan) (prev c : UInt8) (input : List UInt8) : Scan × List UInt8 :=
  match state with
  | .text =>
    if c = 39 ∧ prev ≠ 92 then (.quoted, [])
    else if c = 36 ∧ prev ≠ 92 then (.dollar, [])
    else (.text, [c])
  | .dollar => if c = 40 ∨ c = 123 then (.name input, []) else (.text, [36, c])
  | .name start =>
    if c = 41 ∨ c = 125 then (.text, (env (start.take (start.length - input.length - 1))).getD [])
    else (.name start, [])
  | .quoted => if c = 39 ∧ prev ≠ 92 then (.text, []) else (.quoted, [c])

/-- What the loop would write without a limit. -/
def expand : List UInt8 → UInt8 → Scan → List UInt8
  | [], _, _ => []
  | c :: input, prev, state =>
    if state ≠ .quoted ∧ c = 92 ∧ prev ≠ 92 then
      match input with
      | [] => []
      | d :: input => (state.step env c d input).2 ++ expand input d (state.step env c d input).1
    else (state.step env prev c input).2 ++ expand input c (state.step env prev c input).1

/-- `envcnt`, if a character ends the name of a variable. The terminator is stored there. -/
def Macros.envcnt (m : Macros) (c : UInt8) (input : List UInt8) : List ℕ :=
  match m.state with
  | .name start => if c = 41 ∨ c = 125 then [start.length - input.length - 1] else []
  | _ => []

/-- The values of `envcnt` in the loop. -/
def envcnts : List UInt8 → Macros → List ℕ
  | [], _ => []
  | c :: input, m =>
    if m.outputcnt = 0 then []
    else if m.state ≠ .quoted ∧ c = 92 ∧ m.prev ≠ 92 then
      match input with
      | [] => []
      | d :: input => m.envcnt d input ++ envcnts input
          { { m with prev := c }.char env d input with prev := d }
    else m.envcnt c input ++ envcnts input { m.char env c input with prev := c }

/-- A backslash, a single quote or a dollar sign. -/
def Special (c : UInt8) : Prop := c = 92 ∨ c = 39 ∨ c = 36

instance : DecidablePred Special := fun _ => inferInstanceAs (Decidable (_ ∨ _))

/-- What comes out for an escaped text behind a character. -/
def shown : UInt8 → List UInt8 → List UInt8
  | _, [] => []
  | prev, c :: w => (if prev = 92 ∧ Special c then [92, c] else [c]) ++ shown c w

variable {env} {cbsize : ℕ}

theorem length_shown (prev : UInt8) (w : List UInt8) :
    w.length ≤ (shown prev w).length ∧ (shown prev w).length ≤ (escape 92 Special w).length := by
  induction w generalizing prev with
  | nil => exact ⟨le_rfl, le_rfl⟩
  | cons c w ih =>
    have hrest := ih c
    rw [shown, escape_cons, length_append, length_append]
    split
    · next h =>
      rw [if_pos h.2]
      simp only [length_cons]
      omega
    · split <;> simp only [length_cons] <;> omega

/-- Nothing is added exactly if no special character stands behind a backslash. -/
theorem shown_eq_self_iff (prev : UInt8) (w : List UInt8) :
    shown prev w = w ↔ (prev :: w).IsChain fun a b => a = 92 → ¬ Special b := by
  induction w generalizing prev with
  | nil => simp [shown]
  | cons c w ih =>
    rw [shown, isChain_cons_cons, ← ih c]
    split
    · next h =>
      refine iff_of_false (fun heq => ?_) fun hc => hc.1 h.1 h.2
      have hlen := congrArg length heq
      have hle := (length_shown c w).1
      simp only [length_append, length_cons] at hlen
      omega
    · next h => simpa using fun _ => not_and.mp h

theorem expand_cons {state : Scan} {prev c : UInt8} (h : ¬ (state ≠ .quoted ∧ c = 92 ∧ prev ≠ 92))
    (input : List UInt8) :
    expand env (c :: input) prev state =
      (state.step env prev c input).2 ++ expand env input c (state.step env prev c input).1 := by
  rw [expand.eq_def]
  exact if_neg h

theorem Macros.char_eq {m : Macros} (h : m.outputcnt ≠ 0) (c : UInt8) (input : List UInt8) :
    m.char env c input =
      { m with
        state := (m.state.step env m.prev c input).1
        output := m.output ++ (m.state.step env m.prev c input).2.take m.outputcnt
        outputcnt := m.outputcnt - (m.state.step env m.prev c input).2.length } := by
  obtain ⟨prev, state, output, room⟩ := m
  obtain ⟨room, rfl⟩ := Nat.exists_eq_succ_of_ne_zero h
  cases state <;> simp only [Macros.char, Macros.put, Scan.step] <;> split_ifs <;> simp_all
  omega

/-- The loop writes the beginning of the expansion. -/
theorem macrosLoop_eq (input : List UInt8) (m : Macros) :
    (macrosLoop env input m).output = m.output ++ (expand env input m.prev m.state).take m.outputcnt ∧
      (macrosLoop env input m).outputcnt = m.outputcnt - (expand env input m.prev m.state).length := by
  fun_induction macrosLoop env input m with
  | case1 m => simp [expand]
  | case2 c input m hzero => simp [hzero]
  | case3 c m hroom hesc =>
    rw [expand, if_pos hesc]
    simp
  | case4 c m hroom hesc d input ih =>
    rw [ih.1, ih.2, expand, if_pos hesc, Macros.char_eq (m := { m with prev := c }) hroom]
    simp [take_append, Nat.sub_sub]
  | case5 c input m hroom hesc ih =>
    rw [ih.1, ih.2, expand_cons hesc, Macros.char_eq hroom]
    simp [take_append, Nat.sub_sub]

theorem macrosLoop_start (env : List UInt8 → Option (List UInt8)) (input : List UInt8)
    (cbsize : ℕ) :
    (macrosLoop env input ⟨0, .text, [], cbsize⟩).output = (expand env input 0 .text).take cbsize ∧
      (macrosLoop env input ⟨0, .text, [], cbsize⟩).outputcnt = cbsize -
      (expand env input 0 .text).length :=
  macrosLoop_eq input ⟨0, .text, [], cbsize⟩

theorem cliSimpleProcessMacros_eq (env : List UInt8 → Option (List UInt8)) (input : List UInt8)
    (hpos : 0 < cbsize) : cliSimpleProcessMacros env cbsize input = (expand env input 0 .text).take
    (cbsize - 1) := by
  obtain ⟨houtput, hcnt⟩ := macrosLoop_start env input cbsize
  rw [cliSimpleProcessMacros, houtput]
  split
  · rw [take_of_length_le (by omega), take_of_length_le (by omega)]
  · rw [dropLast_eq_take, length_take, take_take]
    exact congrArg (take · _) (by omega)

theorem expand_plain {prev c : UInt8} (h : prev = 92 ∨ ¬ Special c) (input : List UInt8) :
    expand env (c :: input) prev .text = c :: expand env input c .text := by
  have hesc : ¬ (c = 92 ∧ prev ≠ 92) := fun hc => h.elim hc.2 fun hs => hs (.inl hc.1)
  have hquote : ¬ (c = 39 ∧ prev ≠ 92) := fun hc => h.elim hc.2 fun hs => hs (.inr (.inl hc.1))
  have hdollar : ¬ (c = 36 ∧ prev ≠ 92) := fun hc => h.elim hc.2 fun hs => hs (.inr (.inr hc.1))
  rw [expand_cons fun hc => hesc hc.2, Scan.step.eq_def]
  rw [if_neg hquote, if_neg hdollar]
  rfl

theorem expand_escape (env : List UInt8 → Option (List UInt8)) (prev : UInt8) (w : List UInt8) :
    expand env (escape 92 Special w) prev .text = shown prev w := by
  induction w generalizing prev with
  | nil => rfl
  | cons c w ih =>
    rw [escape_cons, shown]
    by_cases hc : Special c
    · rw [if_pos hc]
      by_cases hprev : prev = 92
      · -- the escape is copied, and what it escapes as well
        rw [cons_append, singleton_append, expand_plain (.inl hprev), expand_plain (.inl rfl), ih,
          if_pos ⟨hprev, hc⟩]
        rfl
      · rw [cons_append, singleton_append, expand, if_pos ⟨nofun, rfl, hprev⟩,
          if_neg fun h => hprev h.1, ← ih c]
        simp [Scan.step]
    · rw [if_neg hc, singleton_append, expand_plain (.inr hc), ih, if_neg fun h => hc h.2]
      rfl

section Names

variable {n : ℕ} {c : UInt8} {input : List UInt8} {m : Macros}
  (hstate : ∀ start, m.state = .name start → start.length < cbsize)

include hstate

theorem Macros.envcnt_lt (hn : n ∈ m.envcnt c input) : n < cbsize := by
  rw [Macros.envcnt.eq_def] at hn
  split at hn
  · next start hs =>
    split at hn
    · have hlt := hstate start hs
      rw [mem_singleton.mp hn]
      omega
    · cases hn
  · cases hn

theorem Macros.length_lt_of_char (hroom : m.outputcnt ≠ 0) (hinput : input.length < cbsize) :
    ∀ start, (m.char env c input).state = .name start → start.length < cbsize := by
  intro start hs
  rw [Macros.char_eq hroom] at hs
  obtain ⟨prev, state, output, room⟩ := m
  cases state <;> simp only [Scan.step] at hs <;> split_ifs at hs <;> simp_all

/-- Every name is shorter than the input. -/
theorem envcnts_lt (hinput : input.length < cbsize) (hn : n ∈ envcnts env input m) :
    n < cbsize := by
  fun_induction envcnts env input m with
  | case1 | case2 | case3 => exact absurd hn not_mem_nil
  | case4 c m hroom hesc d input ih =>
    rw [length_cons, length_cons] at hinput
    rcases mem_append.mp hn with hn | hn
    · exact Macros.envcnt_lt hstate hn
    · exact ih (Macros.length_lt_of_char hstate hroom (by omega)) (by omega) hn
  | case5 c input m hroom hesc ih =>
    rw [length_cons] at hinput
    rcases mem_append.mp hn with hn | hn
    · exact Macros.envcnt_lt hstate hn
    · exact ih (Macros.length_lt_of_char hstate hroom (by omega)) (by omega) hn

end Names

/-- The output is the beginning of the expansion, as long as there is room for it and a terminator,
and the buffer for names is large enough. -/
theorem processMacros_truncates (env : List UInt8 → Option (List UInt8)) (input : List UInt8)
    (hinput : input.length < cbsize) :
    let m := macrosLoop env input ⟨0, .text, [], cbsize⟩
    m.output.length + (if m.outputcnt ≠ 0 then 1 else 0) ≤ cbsize ∧
      cliSimpleProcessMacros env cbsize input =
        (expand env input 0 .text).take (min (expand env input 0 .text).length (cbsize - 1)) ∧
      ∀ n ∈ envcnts env input ⟨0, .text, [], cbsize⟩, n < cbsize := by
  obtain ⟨houtput, hcnt⟩ := macrosLoop_start env input cbsize
  refine ⟨?_, ?_, fun n => envcnts_lt nofun hinput⟩
  · rw [houtput, length_take]
    split <;> omega
  · rw [cliSimpleProcessMacros_eq env input (by omega), take_eq_take_iff]
    omega

/-- A value of seven characters in a buffer of six. -/
theorem processMacros_truncates_value : [36, 123, 97, 125].length < 6 ∧
    cliSimpleProcessMacros (fun _ => some [49, 50, 51, 52, 53, 54, 55]) 6 [36, 123, 97, 125] =
    [49, 50, 51, 52, 53] :=
  ⟨by decide, (processMacros_truncates _ _ (by decide)).2.1.trans (by decide)⟩

/-- An escaped text comes out as it was exactly if no special character stands behind a backslash in
it. -/
theorem processMacros_escape_iff (env : List UInt8 → Option (List UInt8)) (w : List UInt8)
    (hfit : (escape 92 Special w).length < cbsize) :
    cliSimpleProcessMacros env cbsize (escape 92 Special w) = w ↔ w.IsChain fun a b => a = 92 →
      ¬ Special b := by
  have hroom := (length_shown 0 w).2
  have hout : cliSimpleProcessMacros env cbsize (escape 92 Special w) = shown 0 w := by
    rw [cliSimpleProcessMacros_eq env _ (by omega), expand_escape, take_of_length_le (by omega)]
  rw [hout, shown_eq_self_iff]
  cases w <;> simp

/-- The text is a dollar sign in front of a name in braces. -/
theorem processMacros_escape_dollar :
    cliSimpleProcessMacros (fun _ => some [120]) 256 (escape 92 Special [36, 123, 97, 125]) =
    [36, 123, 97, 125] :=
  (processMacros_escape_iff _ _ (by decide)).mpr (by decide)

/-- A backslash in front of a dollar sign comes out twice. -/
theorem processMacros_escape_backslash :
    cliSimpleProcessMacros (fun _ => none) 256 (escape 92 Special [92, 36]) ≠ [92, 36] := by
  decide

end UBoot.Cli
