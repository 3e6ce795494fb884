import UBoot.Burning.Ini
import Mathlib.Data.List.TakeWhile

/-!
# Which lines of an INI file are kept

A text is a list of lines with their terminators and a last line without one. `validLines` keeps the
terminated lines without any `;` that are not blank: a `;` in a value removes the line it is in, and
the last line needs a terminator.
-/

namespace UBoot.Burning.Ini

open List

/-- The terminators of a line. -/
inductive Terminator where
  | lf
  | crlf
deriving DecidableEq

/-- Their characters. -/
def Terminator.chars : Terminator → List UInt8
  | .lf => [10]
  | .crlf => [13, 10]

/-- A text: lines with terminators, and what stands behind the last terminator. -/
structure IniText where
  terminated : List (List UInt8 × Terminator)
  last : List UInt8

/-- A terminated line. -/
def terminatedChars (l : List UInt8 × Terminator) : List UInt8 := l.1 ++ l.2.chars

/-- The characters of the text. -/
def IniText.chars (t : IniText) : List UInt8 := t.terminated.flatMap terminatedChars ++ t.last

/-- The lines of the text; one that is not terminated has a character. -/
def IniText.lines (t : IniText) : List (List UInt8) :=
  t.terminated.map Prod.fst ++ if t.last = [] then [] else [t.last]

/-- A line in which nothing ends it early. -/
def Plain (line : List UInt8) : Prop := ∀ c ∈ line, c ≠ 13 ∧ c ≠ 10 ∧ c ≠ 0

instance (line : List UInt8) : Decidable (Plain line) :=
  List.decidableBAll _ line

/-- A line to keep: it is not blank, and its first other character is not `;`. -/
def keeps (line : List UInt8) : Bool :=
  match line.dropWhile isSpaceChar with
  | [] => false
  | c :: _ => c != 59

/-! ## Cutting -/

variable {maxLines : ℕ} {line cur rest : List UInt8} {lines : List (List UInt8)}

/-- Characters inside a line are passed. -/
theorem parseLoop_plain (hplain : Plain line) (hlines : lines.length < maxLines) :
    parseLoop maxLines (line ++ rest) cur lines = parseLoop maxLines rest (cur ++ line) lines := by
  induction line generalizing cur with
  | nil => rw [nil_append, append_nil]
  | cons c line ih =>
    have hc := hplain c (mem_cons_self ..)
    have hline : Plain line := (forall_mem_cons.mp hplain).2
    rw [cons_append, parseLoop.eq_def]
    dsimp only
    rw [if_neg hlines.not_ge, if_pos ⟨hc.1, hc.2.1⟩, ih hline, append_assoc, singleton_append]

/-- A terminator ends a line, at the end of the text as well. -/
theorem parseLoop_terminator (t : Terminator) (hlines : lines.length < maxLines) :
    parseLoop maxLines (t.chars ++ rest) cur lines = parseLoop maxLines rest [] (lines ++ [cur]) := by
  have hle := hlines.not_ge
  cases t with
  | lf =>
    rw [Terminator.chars, singleton_append, parseLoop.eq_def]
    dsimp only
    rw [if_neg hle]
    cases rest <;> rfl
  | crlf =>
    rw [Terminator.chars, cons_append, parseLoop.eq_def]
    dsimp only
    rw [if_neg hle]
    rfl

theorem parseLoop_terminated {ls : List (List UInt8 × Terminator)} (hplain : ∀ l ∈ ls, Plain l.1)
    (hlines : lines.length + ls.length ≤ maxLines) :
    parseLoop maxLines (ls.flatMap terminatedChars ++ rest) [] lines =
      parseLoop maxLines rest [] (lines ++ ls.map Prod.fst) := by
  induction ls generalizing lines with
  | nil => rw [flatMap_nil, nil_append, map_nil, append_nil]
  | cons l ls ih =>
    rw [length_cons] at hlines
    rw [flatMap_cons, terminatedChars, append_assoc, append_assoc,
      parseLoop_plain (hplain l (mem_cons_self ..)) (by omega), nil_append,
      parseLoop_terminator _ (by omega), ih (forall_mem_cons.mp hplain).2 (by
        rw [length_append, length_singleton]; omega), map_cons, append_assoc,
      singleton_append]

/-- The terminated lines are found. -/
theorem parseBuf2Lines_eq (t : IniText) (hplain : ∀ l ∈ t.lines, Plain l)
    (hcount : t.lines.length ≤ maxLines) : parseBuf2Lines maxLines t.chars =
    .ok (t.terminated.map Prod.fst) := by
  have hterminated : ∀ l ∈ t.terminated, Plain l.1 := fun l hl =>
    hplain _ (mem_append_left _ (mem_map_of_mem hl))
  rw [IniText.lines, length_append, length_map] at hcount
  rw [parseBuf2Lines, IniText.chars, parseLoop_terminated hterminated (by rw [length_nil]; omega),
    nil_append]
  by_cases hlast : t.last = []
  · rw [hlast, parseLoop]
  rw [if_neg hlast, length_singleton] at hcount
  have hplainLast : Plain t.last := hplain _
    (mem_append_right _ (by rw [if_neg hlast]; exact mem_singleton_self _))
  have hloop : parseLoop maxLines (t.last ++ []) [] (t.terminated.map Prod.fst) =
      parseLoop maxLines [] ([] ++ t.last) (t.terminated.map Prod.fst) :=
    parseLoop_plain hplainLast (by rw [length_map]; omega)
  rw [append_nil] at hloop
  rw [hloop, parseLoop]

/-! ## Removing -/

theorem scanLine_eq (line : List UInt8) (isSpaceLine removed : Bool) :
    scanLine line isSpaceLine removed =
    (isSpaceLine && line.all isSpaceChar, removed || line.contains 59) := by
  induction line generalizing isSpaceLine removed with
  | nil => simp [scanLine]
  | cons c line ih =>
    rw [scanLine]
    by_cases hc : isSpaceChar c
    · have hne : c ≠ 59 := by rintro rfl; cases hc
      rw [ih]
      simp [hc, hne.symm]
    · rw [if_neg hc, ih, contains_cons, all_cons, Bool.eq_false_iff.mpr hc, Bool.false_and,
        Bool.and_false, Bool.or_assoc, BEq.comm]

/-- A line without `;` is kept as it should be. -/
theorem keeps_eq_of_not_mem (h : 59 ∉ line) : keeps line = !line.all isSpaceChar := by
  rw [keeps]
  induction line with
  | nil => rfl
  | cons c line ih =>
    rw [mem_cons, not_or] at h
    by_cases hc : isSpaceChar c
    · rw [dropWhile_cons_of_pos hc, ih h.2, all_cons, hc, Bool.true_and]
    · simp [hc, Ne.symm h.1]

theorem abandonLine_eq_keeps (hplain : Plain line) :
    abandonLine line = if keeps line && !line.contains 59 then some line else none := by
  have hstr : line.takeWhile (· ≠ 0) = line :=
    takeWhile_eq_self_iff.mpr fun c hc => decide_eq_true (hplain c hc).2.2
  rw [abandonLine]
  rw [hstr, scanLine_eq, Bool.true_and, Bool.false_or]
  by_cases hmem : 59 ∈ line
  · simp [hmem]
  · rw [keeps_eq_of_not_mem hmem]
    cases line.all isSpaceChar <;> simp

/-- The lines that are not NULL afterwards. -/
def survivors (text : List UInt8) : Except ℤ (List (List UInt8)) :=
  (validLines text).map fun lines => lines.filterMap id

variable (t : IniText)

theorem survivors_eq (hplain : ∀ l ∈ t.lines, Plain l) (hcount : t.lines.length < 1024) :
    survivors t.chars = .ok ((t.terminated.map Prod.fst).filter fun l => keeps l && !l.contains 59) := by
  have hline : ∀ l ∈ t.terminated.map Prod.fst,
      abandonLine l = if keeps l && !l.contains 59 then some l else none := fun l hl =>
    abandonLine_eq_keeps (hplain l (mem_append_left _ hl))
  rw [survivors, validLines, parseBuf2Lines_eq t hplain hcount.le]
  refine congrArg Except.ok ?_
  dsimp only
  rw [abandonIniCommentLines, filterMap_map, Function.id_comp, filterMap_congr hline,
    ← filterMap_eq_filter]
  refine filterMap_congr fun l _ => ?_
  rw [Option.guard]

/-- The lines that should be kept. -/
theorem filter_keeps_lines :
    t.lines.filter keeps = (t.terminated.map Prod.fst).filter keeps ++ if keeps t.last then
    [t.last] else [] := by
  rw [IniText.lines, filter_append]
  congr 1
  by_cases hlast : t.last = []
  · rw [hlast]
    rfl
  · rw [if_neg hlast, filter_singleton, Bool.cond_eq_ite]

/-- The lines that are kept are the ones that should be, exactly when no such line has a `;` in it
and none stands behind the last terminator. -/
theorem survivors_eq_iff (hplain : ∀ l ∈ t.lines, Plain l) (hcount : t.lines.length < 1024) :
    survivors t.chars = .ok (t.lines.filter keeps) ↔
      (∀ l ∈ t.terminated.map Prod.fst, keeps l → 59 ∉ l) ∧ keeps t.last = false := by
  rw [survivors_eq t hplain hcount, Except.ok.injEq, filter_keeps_lines]
  have hsplit : (t.terminated.map Prod.fst).filter (fun l => keeps l && !l.contains 59) =
      ((t.terminated.map Prod.fst).filter keeps).filter fun l => !l.contains 59 := by
    rw [filter_filter]
    exact filter_congr fun l _ => Bool.and_comm _ _
  rw [hsplit]
  generalize t.terminated.map Prod.fst = ls
  constructor
  · intro heq
    -- a removed line or a last one would make the lists differ in length
    have hlen := congrArg length heq
    have hle := length_filter_le (fun l => !l.contains 59) (ls.filter keeps)
    rw [length_append] at hlen
    have hnil := eq_nil_of_length_eq_zero (Nat.le_zero.mp (by omega :
      (if keeps t.last then [t.last] else []).length ≤ 0))
    rw [hnil, append_nil, filter_eq_self] at heq
    refine ⟨fun l hl hk => by simpa using heq l (mem_filter.mpr ⟨hl, hk⟩), ?_⟩
    by_contra hlast
    rw [if_pos (by simpa using hlast)] at hnil
    exact cons_ne_nil _ _ hnil
  · rintro ⟨hkept, hlast⟩
    rw [hlast, if_neg Bool.false_ne_true, append_nil, filter_eq_self]
    intro l hl
    obtain ⟨hmem, hk⟩ := mem_filter.mp hl
    simpa using hkept l hmem hk

/-- A file with a comment line and a blank one, in both styles of line ends. -/
def commentedText : IniText where
  terminated := [([59, 91, 97, 93], .lf), ([91, 97, 93], .crlf), ([32, 9], .lf), ([98, 61, 99], .lf)]
  last := [32, 59]

theorem survivors_commentedText : survivors commentedText.chars =
    .ok (commentedText.lines.filter keeps) :=
  (survivors_eq_iff commentedText (by decide) (by decide)).mpr ⟨by decide, by decide⟩

/-- A file of two lines, the second one with a `;` in its value. -/
def semicolonText : IniText where
  terminated := [([91, 97, 93], .lf), ([98, 61, 99, 59, 100], .crlf)]
  last := []

/-- A file whose only line has no terminator. -/
def openText : IniText where
  terminated := []
  last := [98, 61, 99]

theorem survivors_semicolonText :
    (∀ l ∈ semicolonText.lines, Plain l) ∧ survivors semicolonText.chars = .ok [[91, 97, 93]] ∧
      semicolonText.lines.filter keeps = [[91, 97, 93], [98, 61, 99, 59, 100]] ∧
      (∀ l ∈ openText.lines, Plain l) ∧ survivors openText.chars = .ok [] ∧
      openText.lines.filter keeps = [[98, 61, 99]] := by
  decide

end UBoot.Burning.Ini
