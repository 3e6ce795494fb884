import UBoot.Common.Escape
import UBoot.Env.Hashtable

/-!
# Importing into the table

Reference: `lib/hashtable.c::himport_r`, `lib/hashtable.c::drop_var_from_set`.

`himport_r` parses its private copy of the text in place, from left to right, and never looks back
at what it has passed, so the model keeps only the bytes from `dp` on. Reading the byte at `dp` when
none is left is a read outside the copy, and ends the model with `outOfBounds`.
-/

namespace UBoot.Env

open UBoot.Common List

/-! ## Parsing one entry -/

/-- What one round of the parse loop finds. -/
inductive Item where
  | comment
  | delete (name : CStr)
  | enter (name value : CStr)
deriving DecidableEq

section

variable (sep : UInt8) (dp : List UInt8) (c : UInt8)

/-- `isblank`. -/
def isblank : Bool := c = 32 ∨ c = 9

/-- A name goes on until `=`, NUL or the separator. -/
def inName : Bool := c ≠ 61 ∧ c ≠ 0 ∧ c ≠ sep

/-- A comment goes on until NUL or the separator. -/
def inComment : Bool := c ≠ 0 ∧ c ≠ sep

/-- The value behind `=` and the byte that ends it. -/
def parseValue (name : List UInt8) (dp : List UInt8) : Option (Item × List UInt8) :=
  match scanEscaped 92 0 (fun c => c = 0 ∨ c = sep) dp with
  | some (value, _ :: dp) => some (.enter (.ofBytes name) (.ofBytes value), dp)
  | _ => none

/-- What follows the name: nothing (the variable is deleted), or `=` and a value. -/
def parseTail (name : List UInt8) : List UInt8 → Option (Item × List UInt8)
  | [] => none
  | c :: dp =>
    if c = 0 then some (.delete (.ofBytes name), dp)
    else
      match dp with
      | [] => none
      | d :: rest =>
        if d = 0 ∨ c = sep ∨ d = sep then
          some (.delete (.ofBytes name), if c = 61 then rest else d :: rest)
        else parseValue sep name (d :: rest)

/-- One round of the parse loop, up to the call that changes the table: what was found and the bytes
behind it. -/
def parseItem : Option (Item × List UInt8) :=
  let dp := dp.dropWhile isblank
  if dp.head? = some 35 then
    match dp.dropWhile (inComment sep) with
    | [] => none
    | _ :: dp => some (.comment, dp)
  else parseTail sep (dp.takeWhile (inName sep)) (dp.dropWhile (inName sep))

/-- A name begins here: the next byte is neither blank nor the beginning of a comment. -/
def Starts : Prop := ∀ c ∈ dp.head?, isblank c = false ∧ c ≠ 35

end

theorem inName_zero (sep : UInt8) : inName sep 0 = false := by simp [inName]

theorem inName_eq (sep : UInt8) : inName sep 61 = false := by simp [inName]

/-- The name ends at the first byte that is not in a name. -/
theorem Starts.parseItem_eq {sep c : UInt8} {x dp : List UInt8} (hstart : Starts (x ++ c :: dp))
    (hx : ∀ b ∈ x, inName sep b = true) (hc : inName sep c = false) :
    parseItem sep (x ++ c :: dp) = parseTail sep x (c :: dp) := by
  have hskip : (x ++ c :: dp).dropWhile isblank = x ++ c :: dp := by
    cases hl : x ++ c :: dp with
    | nil => rfl
    | cons b l =>
      rw [hl] at hstart
      rw [dropWhile_cons_of_neg (by rw [(hstart b rfl).1]; decide)]
  have hhead : (x ++ c :: dp).head? ≠ some 35 := fun h => (hstart 35 h).2 rfl
  simp only [parseItem, hskip, if_neg hhead]
  rw [takeWhile_append_of_pos hx, dropWhile_append_of_pos hx, takeWhile_cons_of_neg (by simp [hc]),
    dropWhile_cons_of_neg (by simp [hc]), append_nil]

/-! ## `himport_r` -/

/-- `drop_var_from_set`: whether the variable is to be processed, and the list with its name
removed. Removed names are `none`. -/
def dropVarFromSet (name : CStr) (vars : List (Option CStr)) : Bool × List (Option CStr) :=
  if vars.length = 0 then (true, vars)
  else (vars.contains (some name), vars.map fun v => if v = some name then none else v)

/-- The outcome of `himport_r`. -/
inductive Import (κ γ : Type) where
  /-- returns 1 -/
  | ok (s : State κ γ)
  /-- returns 0 -/
  | failed (e : Errno) (s : State κ γ)
  /-- reads outside the private copy of the text -/
  | outOfBounds
  /-- does not return -/
  | hang

/-- The number of entries asked for when a table is created. `nent` is an `int`. -/
def importEntries (size : ℕ) : ℕ :=
  let nent := ((64 + size / 8 : ℕ) : ℤ).bmod (2 ^ 32)
  let nent := if nent > 512 then 512 else nent
  (nent % 2 ^ 64).toNat

/-- `H_NOCLEAR`. -/
def hNoclear : ℕ := 1

/-- The bytes left after carriage returns in front of line feeds are dropped, up to the first
NUL. -/
def stripCr : List UInt8 → List UInt8
  | [] => []
  | [c] => if c = 0 then [] else [c]
  | c :: d :: rest =>
    if c = 0 then []
    else if c = 13 ∧ d = 10 then stripCr (d :: rest)
    else c :: stripCr (d :: rest)

/-- The number of carriage returns dropped. -/
def ignoredCrs : List UInt8 → ℕ
  | [] => 0
  | [_] => 0
  | c :: d :: rest =>
    if c = 0 then 0
    else if c = 13 ∧ d = 10 then ignoredCrs (d :: rest) + 1
    else ignoredCrs (d :: rest)

section

variable {κ γ : Type} (hk : Hooks κ γ)

/-- The effect of an item on the table and on the list of variables. -/
def processItem (flag : ℕ) (item : Item) (vars : List (Option CStr)) (s : State κ γ) :
    Import κ γ × List (Option CStr) :=
  match item with
  | .comment => (.ok s, vars)
  | .delete name =>
    let (listed, vars) := dropVarFromSet name vars
    if listed then
      match hdeleteR hk name flag s with
      | (_, .hang) => (.hang, vars)
      | (s, _) => (.ok s, vars)
    else (.ok s, vars)
  | .enter name value =>
    if name = ∅ then (.failed .einval s, vars)
    else
      let (listed, vars) := dropVarFromSet name vars
      if listed then
        match hsearchR hk name (.enter value) flag s with
        | (_, .hang) => (.hang, vars)
        | (s, _) => (.ok s, vars)
      else (.ok s, vars)

/-- The deletion of the listed variables that were not in the text. -/
def deleteUnseen (flag : ℕ) : List (Option CStr) → State κ γ → Import κ γ
  | [], s => .ok s
  | none :: vars, s => deleteUnseen flag vars s
  | some name :: vars, s =>
    match hdeleteR hk name flag s with
    | (_, .hang) => .hang
    | (s, _) => deleteUnseen flag vars s

/-- The parse loop. Each round passes at least one byte, so as many rounds as there are bytes are
enough. `behind` is the number of bytes of the copy behind the end of the text. -/
def importLoop (sep : UInt8) (flag behind : ℕ) : ℕ → List UInt8 → List (Option CStr) →
    State κ γ → Import κ γ
  | 0, _, _, _ => .hang
  | fuel + 1, dp, vars, s =>
    match parseItem sep dp with
    | none => .outOfBounds
    | some (item, dp) =>
      match processItem hk flag item vars s with
      | (.ok s, vars) =>
        if behind < dp.length ∧ dp.head? ≠ some 0 then importLoop sep flag behind fuel dp vars s
        else deleteUnseen hk flag vars s
      | (r, _) => r

/-- `himport_r` on a `struct hsearch_data` whose table is `old`. The length of `env` is the argument
`size`; memory for the copy and for the table is there. -/
def himportR (old : Option (Htab κ)) (globals : γ) (env : List UInt8) (sep : UInt8) (flag : ℕ)
    (crlfIsLf : Bool) (vars : List CStr) : Import κ γ :=
  let kept := if flag &&& hNoclear = 0 then none else old
  match kept <|> hcreateR (importEntries env.length) with
  | none => .hang
  | some htab =>
    if env.length = 0 then .ok ⟨htab, globals⟩
    else if crlfIsLf then
      let text := stripCr env
      importLoop hk sep flag (ignoredCrs env) env.length (text ++ env.drop text.length)
        (vars.map some) ⟨htab, globals⟩
    else importLoop hk sep flag 0 env.length env (vars.map some) ⟨htab, globals⟩

/-- Importing a text into a fresh table. -/
theorem himportR_eq (old : Option (Htab κ)) (globals : γ) (env : List UInt8)
    (sep : UInt8) {flag : ℕ} (hflag : flag &&& hNoclear = 0) :
    himportR hk old globals env sep flag false [] = match
      (hcreateR (importEntries env.length) : Option (Htab κ)) with
      | none => .hang
      | some htab =>
        if env.length = 0 then .ok ⟨htab, globals⟩
        else importLoop hk sep flag 0 env.length env [] ⟨htab, globals⟩ := by
  simp only [himportR, if_pos hflag]
  generalize (hcreateR (importEntries env.length) : Option (Htab κ)) = fresh
  cases fresh <;> rfl

/-- Importing a text into a fresh table is the parse loop. -/
theorem himportR_eq_importLoop {old : Option (Htab κ)} {globals : γ} {env : List UInt8}
    {sep : UInt8} {flag : ℕ} {fresh : Htab κ} (henv : env.length ≠ 0)
    (hflag : flag &&& hNoclear = 0)
    (hfresh : hcreateR (importEntries env.length) = some fresh) :
    himportR hk old globals env sep flag false [] = importLoop hk sep flag 0 env.length env []
      ⟨fresh, globals⟩ := by
  rw [himportR_eq hk old globals env sep hflag, hfresh]
  exact if_neg henv

end

end UBoot.Env
