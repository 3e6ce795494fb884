import Mathlib.Algebra.Group.Int.Defs
import Mathlib.Algebra.Group.Nat.Defs
import Mathlib.Logic.Function.Basic

/-!
# Logical memory blocks

Reference: `lib/lmb.c`, `include/lmb.h`.

Two tables of regions, the memory of the machine and what is reserved in it. A table is an array of
`MAX_LMB_REGIONS + 1` entries of which the first `cnt` are in use; the others keep whatever was
written to them last. Addresses and sizes are `unsigned long`, 64 bits on the target, and wrap
around.

The field `size` of a table is only ever set to zero and is left out.
-/

namespace UBoot.Memory

open Function

/-- `struct lmb_property`. -/
structure LmbProperty where
  base : BitVec 64
  size : BitVec 64
deriving DecidableEq, Repr

/-- `MAX_LMB_REGIONS`. -/
def maxLmbRegions : ℕ := 8

theorem one_le_maxLmbRegions : 1 ≤ maxLmbRegions := by decide

/-- `struct lmb_region`. Entries up to `maxLmbRegions` exist; with `cnt_le` no function below
reaches further, except where it says so. -/
structure LmbRegion where
  cnt : ℕ
  region : ℕ → LmbProperty
  cnt_le : cnt ≤ maxLmbRegions

/-- `struct lmb`. -/
structure Lmb where
  memory : LmbRegion
  reserved : LmbRegion

/-- `lmb_addrs_overlap`. -/
def addrsOverlap (base1 size1 base2 size2 : BitVec 64) : Bool :=
  base1 < base2 + size2 && base2 < base1 + size1

/-- `lmb_addrs_adjacent`: 1 when the second range follows the first, -1 when it precedes it. -/
def addrsAdjacent (base1 size1 base2 size2 : BitVec 64) : ℤ :=
  if base2 = base1 + size1 then 1 else if base1 = base2 + size2 then -1 else 0

namespace LmbRegion

variable (rgn : LmbRegion) (base size : BitVec 64)

/-- Write one entry. -/
def set (i : ℕ) (p : LmbProperty) : LmbRegion :=
  { rgn with region := update rgn.region i p }

/-- `lmb_regions_adjacent`. -/
def regionsAdjacent (r1 r2 : ℕ) : ℤ :=
  addrsAdjacent (rgn.region r1).base (rgn.region r1).size (rgn.region r2).base (rgn.region r2).size

/-- The first `n` rounds, from `i` on, of the loop of `lmb_remove_region`. -/
def copyDown : ℕ → ℕ → (ℕ → LmbProperty) → ℕ → LmbProperty
  | 0, _, region => region
  | n + 1, i, region => copyDown n (i + 1) (update region i (region (i + 1)))

/-- `lmb_remove_region`. In an empty table `cnt - 1` is the largest `unsigned long`, and the loop
runs off the array: `none`. -/
def removeRegion (r : ℕ) : Option LmbRegion :=
  if rgn.cnt = 0 then none
  else
    some { cnt := rgn.cnt - 1
           region := copyDown (rgn.cnt - 1 - r) r rgn.region
           cnt_le := Nat.le_trans (Nat.sub_le _ _) rgn.cnt_le }

/-- `lmb_coalesce_regions`. -/
def coalesceRegions (r1 r2 : ℕ) : Option LmbRegion :=
  let p := rgn.region r1
  (rgn.set r1 { p with size := p.size + (rgn.region r2).size }).removeRegion r2

/-- The test behind the first loop of `lmb_add_region`: the region at `i` now touches the next one.
In an empty table `cnt - 1` is again the largest `unsigned long`. -/
def touchesNext (i : ℕ) : Bool :=
  i < (rgn.cnt + 2 ^ 64 - 1) % 2 ^ 64 ∧ rgn.regionsAdjacent i (i + 1) ≠ 0

/-- The rest of `lmb_add_region` after region `i` was extended. -/
def mergeNext (i : ℕ) : Option (LmbRegion × ℤ) :=
  if rgn.touchesNext i then (rgn.coalesceRegions i (i + 1)).map fun rgn => (rgn, 2)
  else some (rgn, 1)

/-- The last loop of `lmb_add_region`, from entry `n - 1` down. -/
def insertLoop : ℕ → (ℕ → LmbProperty) → ℕ → LmbProperty
  | 0, region => region
  | n + 1, region =>
    if base < (region n).base then
      insertLoop n (update region (n + 1) (region n))
    else update region (n + 1) ⟨base, size⟩

/-- The end of `lmb_add_region`: the new region gets an entry of its own. -/
def insertRegion (h : rgn.cnt < maxLmbRegions) : LmbRegion :=
  let region := insertLoop base size rgn.cnt rgn.region
  { cnt := rgn.cnt + 1
    region := if base < (region 0).base then update region 0 ⟨base, size⟩ else region
    cnt_le := h }

/-- `lmb_add_region` when no entry could take the new region. -/
def addApart : Option (LmbRegion × ℤ) :=
  if rgn.touchesNext rgn.cnt then
    (rgn.coalesceRegions rgn.cnt (rgn.cnt + 1)).map fun rgn => (rgn, 1)
  else if h : rgn.cnt < maxLmbRegions then some (rgn.insertRegion base size h, 0)
  else some (rgn, -1)

/-- The first loop of `lmb_add_region` stops at an entry that is the new region or touches it. -/
def stopsAt (i : ℕ) : Bool :=
  rgn.region i = ⟨base, size⟩ ∨ addrsAdjacent base size (rgn.region i).base (rgn.region i).size ≠ 0

/-- `lmb_add_region`. -/
def addRegion : Option (LmbRegion × ℤ) :=
  if rgn.cnt = 1 ∧ (rgn.region 0).size = 0 then some (rgn.set 0 ⟨base, size⟩, 0)
  else
    match (List.range rgn.cnt).find? (rgn.stopsAt base size) with
    | none => rgn.addApart base size
    | some i =>
      let p := rgn.region i
      if p = ⟨base, size⟩ then some (rgn, 0)
      else if addrsAdjacent base size p.base p.size > 0 then
        (rgn.set i ⟨p.base - size, p.size + size⟩).mergeNext i
      else (rgn.set i ⟨p.base, p.size + size⟩).mergeNext i

/-- `lmb_overlaps_region`; `none` is the result -1. -/
def overlapsRegion : Option ℕ :=
  (List.range rgn.cnt).find? fun i =>
    addrsOverlap base size (rgn.region i).base (rgn.region i).size

/-- `lmb_free` on the table of reserved regions. -/
def free : Option (LmbRegion × ℤ) :=
  let fin := base + size
  let holds i := (rgn.region i).base ≤ base && fin ≤ (rgn.region i).base + (rgn.region i).size
  match (List.range rgn.cnt).find? holds with
  | none => some (rgn, -1)
  | some i =>
    let p := rgn.region i
    let rgnend := p.base + p.size
    if p.base = base ∧ rgnend = fin then (rgn.removeRegion i).map fun rgn => (rgn, 0)
    else if p.base = base then some (rgn.set i ⟨fin, p.size - size⟩, 0)
    else if rgnend = fin then some (rgn.set i ⟨p.base, p.size - size⟩, 0)
    else (rgn.set i ⟨p.base, base - p.base⟩).addRegion fin (rgnend - fin)

end LmbRegion

variable (lmb : Lmb) (base size align maxAddr : BitVec 64)

/-! ## The interface -/

/-- A table with the empty dummy region. -/
def LmbRegion.dummy (rgn : LmbRegion) : LmbRegion :=
  { cnt := 1, region := update rgn.region 0 ⟨0, 0⟩, cnt_le := by decide }

/-- `lmb_init`. -/
def lmbInit : Lmb := ⟨lmb.memory.dummy, lmb.reserved.dummy⟩

/-- `lmb_add`. -/
def lmbAdd : Option (Lmb × ℤ) :=
  (lmb.memory.addRegion base size).map fun (rgn, ret) => ({ lmb with memory := rgn }, ret)

/-- `lmb_reserve`. -/
def lmbReserve : Option (Lmb × ℤ) :=
  (lmb.reserved.addRegion base size).map fun (rgn, ret) => ({ lmb with reserved := rgn }, ret)

/-- `lmb_free`. -/
def lmbFree : Option (Lmb × ℤ) :=
  (lmb.reserved.free base size).map fun (rgn, ret) => ({ lmb with reserved := rgn }, ret)

/-- `lmb_is_reserved`. -/
def lmbIsReserved (addr : BitVec 64) : Bool :=
  (List.range lmb.reserved.cnt).any fun i =>
    let p := lmb.reserved.region i
    let upper := p.base + p.size - 1
    p.base ≤ addr && addr ≤ upper

/-! ## Allocation -/

/-- `LMB_ALLOC_ANYWHERE`. -/
def allocAnywhere : BitVec 64 := 0

/-- `lmb_align_down`. -/
def alignDown (addr size : BitVec 64) : BitVec 64 := addr &&& ~~~(size - 1)

/-- `lmb_align_up`. -/
def alignUp (addr size : BitVec 64) : BitVec 64 := (addr + (size - 1)) &&& ~~~(size - 1)

/-- The outcomes of `__lmb_alloc_base`. -/
inductive Alloc where
  /-- returns an address -/
  | ret (addr : BitVec 64) (lmb : Lmb)
  /-- writes outside of a table -/
  | outOfBounds
  /-- does not return -/
  | hang

/-- What the search in one memory region comes to: the function returns, or goes on with the next
region. -/
inductive Search where
  | done (r : Alloc)
  | next

/-- The `while` loop of `__lmb_alloc_base`. -/
def allocLoop (lmbbase size align : BitVec 64) : ℕ → BitVec 64 → Search
  | 0, _ => .done .hang
  | fuel + 1, base =>
    if base ≠ 0 ∧ lmbbase ≤ base then
      match lmb.reserved.overlapsRegion base size with
      | none =>
        match lmb.reserved.addRegion base (alignUp size align) with
        | none => .done .outOfBounds
        | some (rgn, r) =>
          .done (.ret (if r < 0 then 0 else base) { lmb with reserved := rgn })
      | some j =>
        let resBase := (lmb.reserved.region j).base
        if resBase < size then .next
        else allocLoop lmbbase size align fuel (alignDown (resBase - size) align)
    else .next

/-- The first address tried in a memory region, if it is tried at all. -/
def firstCandidate (p : LmbProperty) (size align maxAddr : BitVec 64) : Option (BitVec 64) :=
  if p.size < size then none
  else if maxAddr = allocAnywhere then some (alignDown (p.base + p.size - size) align)
  else if p.base < maxAddr then
    let base := p.base + p.size
    let base := if base < p.base then -1 else base
    let base := if base < maxAddr then base else maxAddr
    some (alignDown (base - size) align)
  else none

/-- The `for` loop of `__lmb_alloc_base` over the memory regions, from region `n - 1` down. Each
round of the `while` loop lowers `base`. -/
def allocRegions : ℕ → Alloc
  | 0 => .ret 0 lmb
  | n + 1 =>
    let p := lmb.memory.region n
    match firstCandidate p size align maxAddr with
    | none => allocRegions n
    | some base =>
      match allocLoop lmb p.base size align (base.toNat + 1) base with
      | .done r => r
      | .next => allocRegions n

/-- `__lmb_alloc_base`. -/
def lmbAllocBase : Alloc :=
  allocRegions lmb size align maxAddr lmb.memory.cnt

end UBoot.Memory
