import Mathlib.Data.List.Perm.Basic
import Mathlib.Data.List.Infix
import UBoot.Common.Escape
import UBoot.Env.Hashtable

/-!
# Exporting the table

Reference: `lib/hashtable.c::hexport_r`, `lib/qsort.c`, `lib/string.c::strcmp`, `include/search.h`.

`hexport_r` makes two passes over the selected entries: the first adds up the length of the text,
the second writes `key=value` and the separator for each entry, in the order of the keys. The passes
do not agree on the escape characters: with a NUL separator the first counts none, while the second
still puts a backslash in front of every backslash. What pass 2 writes behind the end of the buffer
is the second argument of `Export.overrun`.

`CONFIG_REGEX` is not set for the boards of this tree, so `H_MATCH_REGEX` is an unsupported method.
-/

namespace UBoot.Env

open UBoot.Common List

/-! ## `qsort` -/

/-- `strcmp`. Plain `char` is unsigned, and the difference is kept in a `signed char`. -/
def strcmpLoop : List UInt8 → List UInt8 → ℤ
  | [], [] => 0
  | [], d :: _ => (0 - d.toNat : ℤ).bmod 256
  | c :: _, [] => (c.toNat : ℤ).bmod 256
  | c :: cs, d :: ds =>
    let res := (c.toNat - d.toNat : ℤ).bmod 256
    if res ≠ 0 then res else strcmpLoop cs ds

@[inherit_doc strcmpLoop]
def strcmp (cs ct : CStr) : ℤ := strcmpLoop cs.bytes ct.bytes

section Qsort

variable {α : Type}

/-- The innermost loop of `qsort`: the element at `j` moves down in steps of `wgap` until it meets
one that is not larger. The loop ends after at most `j` rounds. -/
def siftLoop (comp : α → α → ℤ) (wgap : ℕ) : ℕ → ℕ → List α → List α
  | 0, _, base => base
  | fuel + 1, j, base =>
    let j := j - wgap
    match base[j]?, base[j + wgap]? with
    | some a, some b =>
      if comp a b ≤ 0 then base
      else
        let base := (base.set j b).set (j + wgap) a
        if j ≥ wgap then siftLoop comp wgap fuel j base else base
    | _, _ => base

/-- One round of `qsort`, for one value of `wgap`. -/
def gapPass (comp : α → α → ℤ) (wgap : ℕ) (base : List α) : List α :=
  (List.range' wgap (base.length - wgap)).foldl (fun base i => siftLoop comp wgap i i base) base

/-- The rounds of `qsort`, with `wgap` going down to 1. -/
def gapPasses (comp : α → α → ℤ) : ℕ → ℕ → List α → List α
  | 0, _, base => base
  | fuel + 1, wgap, base =>
    let base := gapPass comp wgap base
    let wgap := (wgap - 1) / 3
    if wgap ≠ 0 then gapPasses comp fuel wgap base else base

/-- The first value of `wgap` for `nel` elements. -/
def firstGap (nel : ℕ) : ℕ → ℕ → ℕ
  | 0, wgap => wgap
  | fuel + 1, wgap =>
    let wgap := 3 * wgap + 1
    if wgap < (nel - 1) / 3 then firstGap nel fuel wgap else wgap

/-- `qsort`: a shell sort. Sizes are counted in elements instead of bytes. -/
def qsort (comp : α → α → ℤ) (base : List α) : List α :=
  if base.length > 1 then
    gapPasses comp base.length (firstGap base.length base.length 0) base
  else base

variable (comp : α → α → ℤ)

theorem siftLoop_perm (wgap fuel j : ℕ) (base : List α) :
    (siftLoop comp wgap fuel j base).Perm base := by
  induction fuel generalizing j base with
  | zero => exact .refl _
  | succ fuel ih =>
    simp only [siftLoop]
    split
    · next a b ha hb =>
      split
      · exact .refl _
      obtain ⟨h₁, rfl⟩ := List.getElem?_eq_some_iff.mp ha
      obtain ⟨h₂, rfl⟩ := List.getElem?_eq_some_iff.mp hb
      have hswap := set_set_perm h₁ h₂
      split
      · exact (ih _ _).trans hswap
      · exact hswap
    · exact .refl _

theorem gapPass_perm (wgap : ℕ) (base : List α) : (gapPass comp wgap base).Perm base := by
  unfold gapPass
  generalize range' wgap (base.length - wgap) = indices
  induction indices generalizing base with
  | nil => exact .refl _
  | cons i indices ih =>
    exact (ih _).trans (siftLoop_perm comp wgap i i base)

theorem gapPasses_perm (fuel wgap : ℕ) (base : List α) :
    (gapPasses comp fuel wgap base).Perm base := by
  induction fuel generalizing wgap base with
  | zero => exact .refl _
  | succ fuel ih =>
    simp only [gapPasses]
    split
    · exact (ih _ _).trans (gapPass_perm comp wgap base)
    · exact gapPass_perm comp wgap base

/-- `qsort` rearranges its elements, whatever the comparison. -/
theorem qsort_perm (base : List α) : (qsort comp base).Perm base := by
  unfold qsort
  split
  · exact gapPasses_perm ..
  · exact .refl _

end Qsort

/-! ## Selecting entries -/

/-- `H_HIDE_DOT`. -/
def hHideDot : ℕ := 8

/-- `H_MATCH_KEY`. -/
def hMatchKey : ℕ := 16

/-- `H_MATCH_DATA`. -/
def hMatchData : ℕ := 32

/-- `H_MATCH_IDENT`. -/
def hMatchIdent : ℕ := 64

/-- `H_MATCH_SUBSTR`. -/
def hMatchSubstr : ℕ := 128

/-- `H_MATCH_METHOD`. -/
def hMatchMethod : ℕ := 448

/-- `match_string`. -/
def matchString (flag : ℕ) (str pat : CStr) : Bool :=
  if flag &&& hMatchMethod = hMatchIdent then strcmp str pat = 0
  else if flag &&& hMatchMethod = hMatchSubstr then pat.bytes <:+: str.bytes
  else false

section

variable {κ : Type}

section

variable (htab : Htab κ) (sep : UInt8) (ep : Entry κ) (flag : ℕ)

/-- `match_entry`. -/
def matchEntry (argv : List CStr) : Bool :=
  argv.any fun arg =>
    (flag &&& hMatchKey ≠ 0 && matchString flag ep.key arg) ||
      (flag &&& hMatchData ≠ 0 && matchString flag ep.data arg)

/-- The entries in use, in the order of the table. -/
def Htab.entries : List (Entry κ) :=
  (List.range htab.size).filterMap fun i =>
    let slot := htab.table (i + 1)
    if slot.used > 0 then some slot.entry else none

/-- The entries saved in `list` by pass 1. -/
def exportList (argv : List CStr) : List (Entry κ) :=
  htab.entries.filter fun ep =>
    !(argv.length > 0 && !matchEntry ep flag argv) &&
      !(flag &&& hHideDot ≠ 0 && ep.key.bytes.head? = some 46)

/-- `cmpkey`. -/
def cmpkey (e₁ e₂ : Entry κ) : ℤ := strcmp e₁.key e₂.key

/-! ## `hexport_r` -/

/-- The loop of pass 1 over a value when the separator is not NUL. -/
def escapedLength (data : List UInt8) : ℕ :=
  data.foldl (fun totlen c => if c = sep ∨ c = 92 then totlen + 2 else totlen + 1) 0

/-- What pass 1 adds to `totlen` for an entry. -/
def entryLength : ℕ :=
  ep.key.length + 2 + (if sep = 0 then ep.data.length else escapedLength sep ep.data.bytes) + 2

/-- What pass 2 writes for a value. -/
def escapeValue (data : CStr) : List UInt8 :=
  escape 92 (fun c => c = sep ∨ c = 92) data.bytes

/-- What pass 2 writes for an entry. -/
def exportEntry : List UInt8 :=
  ep.key.bytes ++ 61 :: (escapeValue sep ep.data ++ [sep])

/-- `totlen` after pass 1. -/
def totlen (argv : List CStr) : ℕ :=
  ((exportList htab flag argv).map (entryLength sep)).sum

/-- Everything pass 2 writes. -/
def exportText (argv : List CStr) : List UInt8 :=
  (qsort cmpkey (exportList htab flag argv)).flatMap (exportEntry sep) ++ [0]

/-- The outcome of `hexport_r`. -/
inductive Export where
  /-- returns -1 with `ENOMEM` -/
  | refused
  /-- returns the size of the buffer -/
  | text (buf : List UInt8)
  /-- fills the buffer and goes on writing behind it -/
  | overrun (buf behind : List UInt8)
deriving DecidableEq

/-- The size of the result buffer when the argument `size` is accepted. -/
def bufferSize (size totlen : ℕ) : ℕ := if size = 0 then totlen + 1 else size

/-- `hexport_r`. The result buffer is allocated or supplied by the caller with the given size; the
unused bytes are zero. -/
def hexportR (size : ℕ) (argv : List CStr) : Export :=
  let totlen := totlen htab sep flag argv
  if size ≠ 0 ∧ size < totlen + 1 then .refused
  else
    let size := bufferSize size totlen
    let text := exportText htab sep flag argv
    if text.length ≤ size then .text (text ++ List.replicate (size - text.length) 0)
    else .overrun (text.take size) (text.drop size)

end

/-! ## The length of the text -/

theorem escapedLength_eq (sep : UInt8) (data : List UInt8) :
    escapedLength sep data = (escape 92 (fun c => c = sep ∨ c = 92) data).length := by
  have hgen : ∀ totlen, data.foldl (fun totlen c => if c = sep ∨ c = 92 then totlen +
        2 else totlen + 1) totlen = totlen + (escape 92 (fun c => c = sep ∨ c = 92) data).length := by
    induction data with
    | nil => intro totlen; rfl
    | cons c data ih =>
      intro totlen
      rw [foldl_cons, ih, escape_cons, length_append]
      split
      all_goals
        simp only [length_cons, length_nil]
        omega
  rw [escapedLength, hgen, zero_add]

/-- The backslashes in the values of the entries. -/
def backslashes (list : List (Entry κ)) : ℕ := (list.map fun ep => ep.data.bytes.count 92).sum

/-- With a NUL separator only backslashes are escaped. -/
theorem length_escapeValue_nul (data : CStr) :
    (escapeValue 0 data).length = data.length + data.bytes.count 92 := by
  rw [escapeValue, length_escape]
  congr 1
  refine countP_congr fun c hc => ?_
  have hne : c ≠ 0 := fun h => data.nul_free (h ▸ hc)
  simp [hne]

/-- Pass 1 counts two bytes more than pass 2 writes, and with a NUL separator no escapes. -/
theorem length_exportEntry (sep : UInt8) (ep : Entry κ) :
    (exportEntry sep ep).length + 2 = entryLength sep ep + if sep = 0 then ep.data.bytes.count
    92 else 0 := by
  simp only [exportEntry, entryLength, length_append, length_cons, length_nil, CStr.length]
  split
  · next h =>
    subst h
    rw [length_escapeValue_nul, CStr.length]
    omega
  · rw [escapedLength_eq, escapeValue]
    omega

theorem length_flatMap_exportEntry (sep : UInt8) (list : List (Entry κ)) :
    (list.flatMap (exportEntry sep)).length + 2 * list.length =
      (list.map (entryLength sep)).sum + if sep = 0 then backslashes list else 0 := by
  induction list with
  | nil => simp [backslashes]
  | cons ep list ih =>
    have hep := length_exportEntry sep ep
    simp only [backslashes] at ih ⊢
    split at ih <;> split at hep <;> simp_all <;> omega

/-- The number of bytes written by pass 2. -/
theorem length_exportText (htab : Htab κ) (sep : UInt8) (flag : ℕ) (argv : List CStr) :
    (exportText htab sep flag argv).length + 2 * (exportList htab flag argv).length = totlen htab
    sep flag argv + 1 +
        if sep = 0 then backslashes (exportList htab flag argv) else 0 := by
  have hperm := qsort_perm cmpkey (exportList htab flag argv)
  have hlen := (hperm.flatMap_right (exportEntry sep)).length_eq
  have hsum := length_flatMap_exportEntry sep (exportList htab flag argv)
  rw [exportText, length_append, totlen]
  simp only [length_cons, length_nil]
  omega

/-- The values of the selected entries have no more backslashes than the buffer has bytes to spare:
two for each entry, and what the caller asked for beyond `totlen + 1`. -/
def ExportFits (htab : Htab κ) (sep : UInt8) (flag size : ℕ) (argv : List CStr) : Prop :=
  sep = 0 → backslashes (exportList htab flag argv) ≤ 2 * (exportList htab flag argv).length +
    (bufferSize size (totlen htab sep flag argv) - (totlen htab sep flag argv + 1))

variable {htab : Htab κ} {sep : UInt8} {argv : List CStr} {flag size : ℕ}

variable (hsize : size = 0 ∨ totlen htab sep flag argv + 1 ≤ size)
include hsize

theorem length_exportText_le_iff :
    (exportText htab sep flag argv).length ≤ bufferSize size (totlen htab sep flag argv) ↔
      ExportFits htab sep flag size argv := by
  have hlen := length_exportText htab sep flag argv
  have hbuf : totlen htab sep flag argv + 1 ≤ bufferSize size (totlen htab sep flag argv) := by
    unfold bufferSize
    split <;> omega
  unfold ExportFits
  split at hlen
  · next h =>
    rw [h] at hbuf hlen ⊢
    simp only [true_imp_iff]
    omega
  · next h =>
    simp only [h, false_imp_iff, iff_true]
    omega

/-- Only a text that fits is delivered. -/
theorem fits_of_hexportR {buf : List UInt8}
    (h : hexportR htab sep flag size argv = .text buf) : ExportFits htab sep flag size argv := by
  unfold hexportR at h
  rw [if_neg (by omega)] at h
  by_contra hfits
  rw [if_neg (fun hle => hfits ((length_exportText_le_iff hsize).mp hle))] at h
  cases h

omit hsize

/-- What pass 2 writes, with its terminator, stays inside the buffer whenever pass 2 is reached. -/
def StaysInside (htab : Htab κ) (sep : UInt8) (flag size : ℕ) (argv : List CStr) : Prop :=
  hexportR htab sep flag size argv ≠ .refused →
    (exportText htab sep flag argv).length ≤ bufferSize size (totlen htab sep flag argv)

theorem hexportR_eq_refused_iff :
    hexportR htab sep flag size argv = .refused ↔ size ≠ 0 ∧ size < totlen htab sep flag argv + 1 := by
  unfold hexportR
  constructor
  · intro h
    by_contra hsize
    rw [if_neg hsize] at h
    dsimp only at h
    split at h <;> cases h
  · intro hsize
    rw [if_pos hsize]

/-- Pass 2 stays inside the buffer if and only if the buffer is refused, the separator is not NUL,
or the values have few enough backslashes. -/
theorem staysInside_iff (htab : Htab κ) (sep : UInt8) (flag size : ℕ) (argv : List CStr) :
    StaysInside htab sep flag size argv ↔
      (size ≠ 0 ∧ size < totlen htab sep flag argv + 1) ∨ ExportFits htab sep flag size argv := by
  rw [StaysInside, Ne, hexportR_eq_refused_iff]
  by_cases hrefused : size ≠ 0 ∧ size < totlen htab sep flag argv + 1
  · exact ⟨fun _ => .inl hrefused, fun _ hnot => absurd hrefused hnot⟩
  · have hsize : size = 0 ∨ totlen htab sep flag argv + 1 ≤ size := by omega
    rw [length_exportText_le_iff hsize]
    exact ⟨fun h => .inr (h hrefused), fun h _ => h.resolve_left hrefused⟩

end

/-- A table with the one variable `a`, whose value is three backslashes. -/
def threeBackslashes : Htab Empty :=
  (hsearchR noHooks (.ofBytes [97]) (.enter (.ofBytes [92, 92, 92])) 0
    ⟨⟨fun _ => default, 5, 0⟩, ()⟩).1.htab

/-- Nine bytes are allocated and ten are written. -/
theorem not_staysInside_threeBackslashes : ¬ StaysInside threeBackslashes 0 0 0 [] := by
  intro h
  have hlength : (exportText threeBackslashes 0 0 []).length ≤ bufferSize 0
    (totlen threeBackslashes 0 0 []) :=
    h (by decide +kernel)
  exact absurd hlength (by decide +kernel)

end UBoot.Env
