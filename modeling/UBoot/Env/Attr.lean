import Mathlib.Data.List.DropRight
import UBoot.Common.CStr

/-!
# Attribute lists

Reference: `common/env_attr.c`, `lib/linux_string.c::strim`, `lib/string.c::strstr`.

An attribute list is `entry[,entry...]` with `entry = name[:attributes]`. `env_attr_walk` goes
through all entries and calls a function for each; `env_attr_lookup` searches the list from its end
for one name. The first cuts the list into entries and trims them, the second looks for the name as
a substring with the right characters around it, skipping spaces.
-/

namespace UBoot.Env

open UBoot.Common

section

variable (s : List UInt8) (front : UInt8) (attrList name : List UInt8)

/-! ## `env_attr_walk` -/

/-- `isspace`. -/
def isspace (c : UInt8) : Bool := (9 ≤ c ∧ c ≤ 13) ∨ c = 32 ∨ c = 160

/-- `strim`. -/
def strim : List UInt8 := (s.dropWhile isspace).rdropWhile isspace

/-- The attributes of an entry: what follows the first `:`, if there is one. -/
def attributesOf (entry : List UInt8) : Option (List UInt8) :=
  match entry.dropWhile (· ≠ 58) with
  | [] => none
  | _ :: attributes => some (strim attributes)

/-- Name and attributes of an entry, if it has a name. -/
def attrEntry (entry : List UInt8) : Option (List UInt8 × Option (List UInt8)) :=
  let name := strim (entry.takeWhile (· ≠ 58))
  if name ≠ [] then some (name, attributesOf entry) else none

/-- The calls made by `env_attr_walk`, in order. -/
def attrEntries : List (List UInt8 × Option (List UInt8)) :=
  (attrList.splitOn 44).filterMap attrEntry

/-- The attributes passed by the last call for a name. -/
def lastAttributes (entries : List (List UInt8 × Option (List UInt8))) (name : List UInt8) :
    Option (Option (List UInt8)) :=
  (entries.reverse.find? fun e => e.1 = name).map Prod.snd

/-! ## `env_attr_lookup` -/

/-- `strstr`: the index of the first occurrence. -/
def strstr : List UInt8 → List UInt8 → Option ℕ
  | [], pat => if pat = [] then some 0 else none
  | c :: s, pat => if pat <+: c :: s then some 0 else (strstr s pat).map (· + 1)

/-- The loop of `reverse_strstr` from index `searched` on. Each round moves `searched` forward, so
as many rounds as there are characters are enough. -/
def reverseStrstrLoop (pat : List UInt8) (start : Option ℕ) : ℕ → ℕ → Option ℕ → Option ℕ
  | 0, _, result => result
  | fuel + 1, searched, result =>
    match strstr (s.drop searched) pat with
    | none => result
    | some i =>
      if start.any (searched + i + pat.length > ·) then result
      else reverseStrstrLoop pat start fuel (searched + i + 1) (some (searched + i))

/-- `reverse_strstr`: the index of the last occurrence, up to `start`. -/
def reverseStrstr (pat : List UInt8) (start : Option ℕ) : Option ℕ :=
  if pat = [] then some 0 else reverseStrstrLoop s pat start (s.length + 1) 0 none

/-- `*prevch`: the character in front of the match, spaces skipped. `front` is the one met first in
the memory in front of the list. -/
def prevch (before : List UInt8) : UInt8 :=
  (before.reverse.dropWhile (· = 32)).headD front

/-- `*nextch`: the character behind the match, spaces skipped; the list ends with NUL. -/
def nextch (after : List UInt8) : UInt8 := (after.dropWhile (· = 32)).headD 0

/-- The test for an exact match at index `entry`. -/
def exactMatch (entry : ℕ) : Bool :=
  let next := nextch (attrList.drop (entry + name.length))
  (entry = 0 ∨ prevch front (attrList.take entry) = 44) ∧ (next = 58 ∨ next = 44 ∨ next = 0)

/-- The attributes behind a matching name. -/
def attributesAfter (after : List UInt8) : List UInt8 :=
  match after.dropWhile (· = 32) with
  | [] => []
  | c :: rest =>
    if c ≠ 58 then [] else (rest.dropWhile (· = 32)).takeWhile fun c => c ≠ 44 ∧ c ≠ 32

/-- The outcome of `env_attr_lookup`. -/
inductive AttrLookup where
  /-- returns 0 with these attributes -/
  | found (attributes : List UInt8)
  /-- returns 2 -/
  | notFound
  /-- does not return -/
  | hang
deriving DecidableEq

/-- The search loop of `env_attr_lookup`. -/
def attrLookupLoop : ℕ → Option ℕ → AttrLookup
  | _, none => .notFound
  | 0, some _ => .hang
  | fuel + 1, some entry =>
    if exactMatch front attrList name entry then
      .found (attributesAfter (attrList.drop (entry + name.length)))
    else attrLookupLoop fuel (reverseStrstr attrList name (some entry))

/-- `env_attr_lookup` on a list that is not `NULL`. The index goes down with every round, except for
an empty name. -/
def envAttrLookup : AttrLookup :=
  attrLookupLoop front attrList name (attrList.length + 1) (reverseStrstr attrList name none)

end

end UBoot.Env
