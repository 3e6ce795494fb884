import Mathlib.Data.Int.Notation
import Mathlib.Data.List.Basic

/-!
# The INI parser of the card burner

A configuration file is cut into lines in place, comment and blank lines are removed, and every line
that is left is cut into words and taken as a set name or a key with a value. A line is the list of
its characters without the terminating 0; a line that was removed is `none`, the NULL pointer of the
source.
-/

namespace UBoot.Burning.Ini

section

variable (c : UInt8) (line : List UInt8)

/-! ## Characters -/

/-- `is_space_char`. -/
def isSpaceChar : Bool := c == 9 || c == 32

/-- `is_delimeter`: one of the characters `[`, `]` and `=`. -/
def isDelimeter : Bool := c == 91 || c == 93 || c == 61

/-- `is_valid_char`: digits, letters and the characters `_ . \ / - :`. -/
def isValidChar : Bool :=
  (48 ≤ c && c ≤ 57) || c == 95 || (97 ≤ c && c ≤ 122) || (65 ≤ c && c ≤ 90) || c == 46 ||
    c == 92 || c == 47 || c == 45 || c == 58

/-- `line_is_valid`. -/
def lineIsValid : Bool :=
  line.all fun c => isDelimeter c || isValidChar c || isSpaceChar c

/-! ## Lines -/

/-- The loop of `_optimus_parse_buf_2_lines` over the rest of the text. `cur` is what has been
passed since `curLine`, and `lines` are the lines found so far. -/
def parseLoop (maxLines : ℕ) : List UInt8 → List UInt8 → List (List UInt8) → Except ℤ
    (List (List UInt8))
  | [], _, lines => .ok lines
  | c :: rest, cur, lines =>
    if maxLines ≤ lines.length then .ok lines
    else if c ≠ 13 ∧ c ≠ 10 then parseLoop maxLines rest (cur ++ [c]) lines
    else
      match rest with
      | [] => .ok (lines ++ [cur])
      | next :: rest' =>
        if c = 13 then
          if next = 10 then parseLoop maxLines rest' [] (lines ++ [cur]) else .error 125
        else parseLoop maxLines (next :: rest') [] (lines ++ [cur])

/-- `_optimus_parse_buf_2_lines`. -/
def parseBuf2Lines (maxLines : ℕ) (text : List UInt8) : Except ℤ (List (List UInt8)) :=
  parseLoop maxLines text [] []

/-- The loop of `_optimus_abandon_ini_comment_lines` over the characters of a line: whether the line
is blank, and whether it has been removed. -/
def scanLine : List UInt8 → Bool → Bool → Bool × Bool
  | [], isSpaceLine, removed => (isSpaceLine, removed)
  | c :: line, isSpaceLine, removed =>
    if isSpaceChar c then scanLine line isSpaceLine removed else scanLine line false (removed || c == 59)

/-- `_optimus_abandon_ini_comment_lines` on one line, which ends at the first 0. -/
def abandonLine : Option (List UInt8) :=
  let str := line.takeWhile (· ≠ 0)
  let (isSpaceLine, removed) := scanLine str true false
  if isSpaceLine || removed then none else some str

/-- `_optimus_abandon_ini_comment_lines`. -/
def abandonIniCommentLines (lines : List (List UInt8)) : List (Option (List UInt8)) :=
  lines.map abandonLine

/-- What `parse_ini_file_2_valid_lines` makes of a text: the array of lines. -/
def validLines (text : List UInt8) : Except ℤ (List (Option (List UInt8))) :=
  (parseBuf2Lines 1024 text).map abandonIniCommentLines

/-! ## Words -/

/-- The loop of `line_2_words`: in a word, of which some characters have been passed, or in a
gap. -/
def wordLoop : List UInt8 → Option (List UInt8) → List (List UInt8)
  | [], none => []
  | [], some word => [word]
  | c :: line, none => if isSpaceChar c then wordLoop line none else wordLoop line (some [c])
  | c :: line, some word =>
    if isSpaceChar c then word :: wordLoop line none else wordLoop line (some (word ++ [c]))

/-- The words `line_2_words` finds when their number is not bounded. -/
def line2Words : List (List UInt8) := wordLoop (line.dropWhile isSpaceChar) (some [])

/-- What a line is taken for. The first three are the tests in front of the `switch`, with `nwords
<= 0` for `noWords` (`line_2_words` has given up) and `nwords > 3` for `tooManyWords`; `syntaxError`
is the branch of three words that sets `ret`, and `noType` leaves the line type at
`INI_LINE_TYPE_ERR`. -/
inductive IniLine where
  | invalidChars
  | noWords
  | tooManyWords
  | syntaxError
  | noType
  | set (name : List UInt8)
  | keyValue (key : List UInt8) (val : Option (List UInt8))
deriving DecidableEq

/-- The text behind a `=`; an empty one is passed as NULL. -/
def valueOf (val : List UInt8) : Option (List UInt8) := if val = [] then none else some val

/-- The `switch` on the number of words. -/
def classify : List (List UInt8) → IniLine
  | [w₀, w₁, w₂] =>
    if w₁ = [61] then .keyValue w₀ (some w₂)
    else if w₀ = [91] ∧ w₂ = [93] then .set w₁
    else .syntaxError
  | [w₀, w₁] =>
    if w₀.head? = some 91 then
      if w₁ = [93] then .set w₀.tail
      else if w₁.getLast? = some 93 ∧ w₀ = [91] then .set w₁.dropLast
      else .noType
    else if w₁ = [61] then .keyValue w₀ none
    else if w₁.head? = some 61 then .keyValue w₀ (some w₁.tail)
    else if w₀.getLast? = some 61 then .keyValue w₀.dropLast (some w₁)
    else .noType
  | [w] =>
    if w.head? = some 91 ∧ w.getLast? = some 93 then .set w.tail.dropLast
    else
      match w.dropWhile (· ≠ 61) with
      | [] => .noType
      | _ :: val => .keyValue (w.takeWhile (· ≠ 61)) (valueOf val)
  | _ => .noType

/-- The part of the loop of `optimus_ini_trans_lines_2_usr_params` that looks at the line only. -/
def parseLine : IniLine :=
  if !lineIsValid line then .invalidChars
  else if 32 ≤ (line2Words line).length then .noWords
  else if 3 < (line2Words line).length then .tooManyWords
  else classify (line2Words line)

end

/-! ## Parameters -/

/-- `pCheckSetUseFul` and `pParseCfgVal`, with whatever state they keep. -/
structure Callbacks (σ : Type*) where
  checkSetUseFul : σ → List UInt8 → ℤ × σ
  parseCfgVal : σ → List UInt8 → List UInt8 → Option (List UInt8) → ℤ × σ

/-- The variables of `optimus_ini_trans_lines_2_usr_params` and the state of the callbacks.
`cacheSetNames` holds the names that have been stored. -/
structure TransState (σ : Type*) where
  ret : ℤ
  cacheSetNames : List (List UInt8)
  currentSetName : Option (List UInt8)
  usr : σ

variable {σ : Type*}

section

variable (cb : Callbacks σ) (st : TransState σ)

/-- A set line. The names are looked up in a cache of `MaxUsefulSets` places; when it is full, the
set is passed over. -/
def transSet (name : List UInt8) : Except (ℤ × σ) (TransState σ) :=
  let (useful, usr) := cb.checkSetUseFul st.usr name
  let st := { st with currentSetName := none, usr := usr }
  if useful = 0 then .ok st
  else if name ∈ st.cacheSetNames then .error (401, usr)
  else if st.cacheSetNames.length < 8 then
    .ok { st with cacheSetNames := st.cacheSetNames ++ [name], currentSetName := some name }
  else .ok st

/-- A key with a value. Outside a useful set it is passed over. -/
def transKeyValue (key : List UInt8) (val : Option (List UInt8)) : Except (ℤ × σ) (TransState σ) :=
  match st.currentSetName with
  | none => .ok st
  | some setName =>
    let (ret, usr) := cb.parseCfgVal st.usr setName key val
    if ret ≠ 0 then .error (ret, usr) else .ok { st with ret := ret, usr := usr }

/-- The body of the loop of `optimus_ini_trans_lines_2_usr_params`; an error leaves the function. -/
def transLine : Option (List UInt8) → Except (ℤ × σ) (TransState σ)
  | none => .ok st
  | some line =>
    match parseLine line with
    | .invalidChars => .error (264, st.usr)
    | .noWords => .error (271, st.usr)
    | .tooManyWords => .error (276, st.usr)
    | .syntaxError => .ok { st with ret := 300 }
    | .noType => .ok st
    | .set name => transSet cb st name
    | .keyValue key val => transKeyValue cb st key val

/-- The loop over the lines. -/
def transLoop : TransState σ → List (Option (List UInt8)) → Except (ℤ × σ) (TransState σ)
  | st, [] => .ok st
  | st, line :: lines =>
    match transLine cb st line with
    | .error e => .error e
    | .ok st' => transLoop st' lines

/-- The variables before the loop. -/
def initState (usr : σ) : TransState σ := ⟨0, [], none, usr⟩

/-- `optimus_ini_trans_lines_2_usr_params`: the return value and the state of the callbacks. -/
def transLines2UsrParams (usr : σ) (lines : List (Option (List UInt8))) : ℤ × σ :=
  match transLoop cb (initState usr) lines with
  | .error e => e
  | .ok st => (st.ret, st.usr)

end

end UBoot.Burning.Ini
