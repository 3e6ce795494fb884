import UBoot.Mtd.MtdpartsParse

/-!
# Texts that `generate_mtdparts` writes

What is formatted is parsed as the same devices, unless a partition is smaller than the least size
that may be written down, or one whose size stands for the remaining space is followed by another.
-/

namespace UBoot.Mtd

open UBoot.Common UBoot.Lib List

/-- The value is returned exactly under the condition, and otherwise an error. -/
def Yields {α : Type} (r : Except MtdpartsError α) (a : α) (c : Prop) : Prop :=
  (c → r = .ok a) ∧ (¬ c → ∃ e, r = .error e)

/-! ### One definition -/

variable {prev : Option Part} {b : UInt8} {fuel numParts cnt : ℕ} {parts : List Part}

section Definition

variable {part : Part} {rest : List UInt8}

/-- A text goes on with an offset or a name. -/
def GoesOn (rest : List UInt8) : Prop := ∀ b ∈ rest.head?, b = 64 ∨ b = 40

theorem memsizeParse_memsizeFormat {n : ℕ} (hn : n < 2 ^ 64) (hrest : GoesOn rest) :
    memsizeParse (memsizeFormat n ++ rest) = (n, rest) := by
  -- a suffix, or none
  have hsuffix : ∀ (k : ℕ) (c : UInt8), n % 2 ^ k = 0 → (c = 103 ∧ k = 30) ∨ (c = 109 ∧ k = 20) ∨
      (c = 107 ∧ k = 10) → memsizeParse (fmtU (n / 2 ^ k) ++ [c] ++ rest) = (n, rest) := by
    intro k c hk hc
    have hmul : n / 2 ^ k * 2 ^ k % 2 ^ 64 = n := by
      rw [Nat.div_mul_cancel (Nat.dvd_of_mod_eq_zero hk), Nat.mod_eq_of_lt hn]
    have hlt : n / 2 ^ k < 2 ^ 64 := (Nat.div_le_self _ _).trans_lt hn
    have hread : simpleStrtoul 0 (fmtU (n / 2 ^ k) ++ c :: rest) = (n / 2 ^ k, c :: rest) := by
      refine simpleStrtoul_fmtU hlt fun b hb => ?_
      obtain rfl := Option.some.inj hb
      rcases hc with ⟨rfl, -⟩ | ⟨rfl, -⟩ | ⟨rfl, -⟩ <;> decide
    rw [append_assoc, singleton_append, memsizeParse, hread]
    rcases hc with ⟨rfl, rfl⟩ | ⟨rfl, rfl⟩ | ⟨rfl, rfl⟩ <;> exact congrArg (·, rest) hmul
  rw [memsizeFormat]
  split
  · next h => exact hsuffix 30 103 h (.inl ⟨rfl, rfl⟩)
  split
  · next h => exact hsuffix 20 109 h (.inr (.inl ⟨rfl, rfl⟩))
  split
  · next h => exact hsuffix 10 107 h (.inr (.inr ⟨rfl, rfl⟩))
  have hread : simpleStrtoul 0 (fmtU n ++ rest) = (n, rest) := by
    refine simpleStrtoul_fmtU hn fun b hb => ?_
    rcases hrest b hb with rfl | rfl <;> decide
  rw [memsizeParse, hread]
  cases rest with
  | nil => rfl
  | cons b rest => rcases hrest b rfl with rfl | rfl <;> rfl

/-- The characters of a size are digits and suffixes. -/
theorem mem_memsizeFormat {n : ℕ} (hb : b ∈ memsizeFormat n) : b ≠ 0 ∧ b ≠ 45 ∧ b ≠ 59 := by
  have hdigit : ∀ m, b ∈ fmtU m → b ≠ 0 ∧ b ≠ 45 ∧ b ≠ 59 := by
    intro m hm
    obtain ⟨d, hd, rfl⟩ := mem_map.mp hm
    have hall : ∀ k : Fin 10, decChar k ≠ 0 ∧ decChar k ≠ 45 ∧ decChar k ≠ 59 := by decide +kernel
    exact hall ⟨d, digitsIn_lt (by decide) hd⟩
  rw [memsizeFormat] at hb
  split_ifs at hb
  all_goals first
    | exact hdigit _ hb
    | (rcases mem_append.mp hb with hb | hb
       · exact hdigit _ hb
       · rw [mem_singleton.mp hb]
         decide)

theorem memsizeFormat_ne_nil (n : ℕ) : memsizeFormat n ≠ [] := by
  have hdigit : ∀ m, fmtU m ≠ [] := fun m => by
    rw [fmtU, digitsIn_succ]
    simp
  rw [memsizeFormat]
  split_ifs
  · simp
  · simp
  · simp
  · exact hdigit n

theorem head?_memsizeFormat {n : ℕ} (hb : b ∈ (memsizeFormat n ++ rest).head?) : b ≠ 45 := by
  obtain ⟨c, l, hcl⟩ := exists_cons_of_ne_nil (memsizeFormat_ne_nil n)
  rw [hcl] at hb
  obtain rfl := Option.some.inj hb
  exact (mem_memsizeFormat (hcl ▸ mem_cons_self)).2.1

/-- The size in front of a definition. -/
theorem sizeParse_memsizeFormat {n : ℕ} (hn : n < 2 ^ 64) (hrest : GoesOn rest) :
    sizeParse (memsizeFormat n ++ rest) = if n < minPartSize then .error .sizeTooSmall else
    .ok (n, rest) := by
  have hparse := memsizeParse_memsizeFormat hn hrest
  unfold sizeParse
  split
  · next heq => exact absurd rfl (head?_memsizeFormat (by rw [heq]; rfl))
  · rw [hparse]

theorem nameParse_name {name : List UInt8} (hne : name ≠ []) (hclose : 41 ∉ name) :
    nameParse (40 :: (name ++ 41 :: rest)) = .ok (some name, rest) := by
  obtain ⟨htake, hdrop⟩ := takeWhile_ne hclose rest
  rw [nameParse, if_neg (by simp), htake, hdrop, if_neg hne]
  rfl

/-- The option behind the name. -/
def flagsText (part : Part) : List UInt8 := if part.maskFlags ≠ 0 then [114, 111] else []

theorem flagsParse_flagsText (hflags : part.maskFlags = 0 ∨ part.maskFlags = 1)
    (hrest : ∀ b ∈ rest.head?, b = 44 ∨ b = 59) : flagsParse (flagsText part ++ rest) =
    (part.maskFlags, rest) := by
  rcases hflags with hflags | hflags
  · rw [flagsText, hflags, if_neg (by simp), nil_append]
    unfold flagsParse
    split
    · exact absurd (hrest 114 rfl) (by decide)
    · rfl
  · rw [flagsText, hflags]
    rfl

/-- The offset of a definition, if it is written. -/
def offsetText (prev : Option Part) (part : Part) : List UInt8 :=
  if endOf prev ≠ part.offset then 64 :: memsizeFormat part.offset else []

/-- A partition as `part_parse` returns it. -/
def Part.unplaced (prev : Option Part) (part : Part) : Part :=
  { part with offset := if endOf prev ≠ part.offset then part.offset else offsetNotSpecified }

theorem offsetParse_offsetText (hlt : part.offset < 2 ^ 64) :
    offsetParse (offsetText prev part ++ 40 :: rest) = ((part.unplaced prev).offset, 40 :: rest) := by
  rw [offsetText, Part.unplaced]
  split
  · exact memsizeParse_memsizeFormat hlt fun b hb => .inr (Option.some.inj hb).symm
  · rfl

/-- A definition up to what separates it from the next one. -/
def defText (prev : Option Part) (part : Part) : List UInt8 :=
  memsizeFormat part.size ++ (offsetText prev part ++ 40 :: (part.name.bytes ++ 41 :: flagsText part))

theorem flatten_partPieces {more : Bool} (hauto : part.autoName = false) :
    (partPieces prev part more).flatten = defText prev part ++ if more then [44] else [] := by
  rw [partPieces, defText, offsetText, flagsText, hauto]
  by_cases hgap : endOf prev ≠ part.offset <;> by_cases hflags :
    part.maskFlags ≠ 0 <;> cases more <;> simp [hgap, hflags]

theorem goesOn_offsetText (prev : Option Part) (part : Part) (rest : List UInt8) :
    GoesOn (offsetText prev part ++ 40 :: rest) := by
  intro b hb
  rw [offsetText] at hb
  split at hb
  · exact .inl (Option.some.inj hb).symm
  · exact .inr (Option.some.inj hb).symm

/-- A definition is parsed as the partition. -/
theorem partParse_defText (hwf : part.WellFormed) (hauto : part.autoName = false)
    (hrest : ∀ b ∈ rest.head?, b = 44 ∨ b = 59) :
    partParse (defText prev part ++ rest) = if part.size < minPartSize then .error .sizeTooSmall
      else
        match nextParse part.size rest with
        | .error e => .error e
        | .ok p => .ok (part.unplaced prev, p) := by
  obtain ⟨hne, hclose⟩ := hwf.name hauto
  have htext : defText prev part ++ rest = memsizeFormat part.size ++ (offsetText prev part ++
      40 :: (part.name.bytes ++ 41 :: (flagsText part ++ rest))) := by
    simp [defText]
  rw [htext, partParse, sizeParse_memsizeFormat hwf.size_lt (goesOn_offsetText _ _ _)]
  split
  · next hsmall =>
    split at hsmall
    · next hlt => rw [if_pos hlt, Except.error.inj hsmall]
    · cases hsmall
  · next size p hsize =>
    split at hsize
    · cases hsize
    next hlt =>
    obtain ⟨rfl, rfl⟩ := Prod.mk.inj (Except.ok.inj hsize)
    rw [if_neg hlt, offsetParse_offsetText hwf.offset_lt]
    dsimp only
    rw [nameParse_name hne hclose]
    dsimp only
    rw [flagsParse_flagsText hwf.flags hrest]
    rw [Option.getD_some, CStr.ofBytes_bytes, Part.unplaced, hauto]
    rfl

end Definition

/-! ### The definitions of a device -/

section Definitions

variable {mtds : DevType → ℕ → Option MtdInfo} {id : Mtdids} {part : Part} {parts : List Part}
    {rest : List UInt8}

/-- A text behind the definitions of a device. -/
def AtEnd (rest : List UInt8) : Prop := ∀ b ∈ rest.head?, b = 59

theorem nextParse_of_atEnd (size : ℕ) (h : AtEnd rest) : nextParse size rest = .ok rest := by
  cases rest with
  | nil => rfl
  | cons b rest =>
    obtain rfl : b = 59 := h b rfl
    rfl

theorem placed_unplaced (h : part.OnDevice mtds id) :
    (if (part.unplaced prev).offset = offsetNotSpecified then
    { part.unplaced prev with offset := endOf prev }
      else part.unplaced prev) = part := by
  have hlt := h.end_lt
  have hpos := h.size_pos
  rw [Part.unplaced]
  dsimp only
  split
  · rw [if_neg (by rw [offsetNotSpecified]; omega)]
  · next heq =>
    rw [if_pos rfl, not_not.mp heq]

/-- A round of the loop. -/
theorem partsLoop_defText (h : part.OnDevice mtds id)
    (hauto : part.autoName = false) (hrest : ∀ b ∈ rest.head?, b = 44 ∨ b = 59) :
    partsLoop mtds id (fuel + 1) (defText prev part ++ rest) (endOf prev) =
      if part.size < minPartSize then .error .sizeTooSmall
      else
        match nextParse part.size rest with
        | .error e => .error e
        | .ok p =>
          match partsLoop mtds id fuel p (endOf (some part)) with
          | .error e => .error e
          | .ok (parts, p) => .ok (part :: parts, p) := by
  have hhead : ¬ (defText prev part ++ rest).head?.all (· = 59) := by
    obtain ⟨c, l, hcl⟩ := exists_cons_of_ne_nil (memsizeFormat_ne_nil part.size)
    have hc : c ≠ 59 := (mem_memsizeFormat (hcl ▸ mem_cons_self)).2.2
    rw [defText, hcl]
    simpa using hc
  rw [partsLoop, partParse_defText h.toWellFormed hauto hrest]
  split_ifs with hsmall
  · rfl
  cases hnext : nextParse part.size rest with
  | error e => rfl
  | ok p =>
    dsimp only
    rw [placed_unplaced h, h.valid]
    rfl

/-- Partitions whose definitions can be read. -/
structure Readable (parts : List Part) : Prop where
  size : ∀ part ∈ parts, minPartSize ≤ part.size
  last : ∀ part ∈ parts.dropLast, part.size ≠ sizeRemaining

theorem readable_cons :
    Readable (part :: parts) ↔ minPartSize ≤ part.size ∧ (parts ≠ [] → part.size ≠ sizeRemaining) ∧
    Readable parts := by
  constructor
  · rintro ⟨hsize, hlast⟩
    refine ⟨hsize part mem_cons_self, fun hne => ?_, (forall_mem_cons.mp hsize).2, fun q hq => ?_⟩
    · rw [dropLast_cons_of_ne_nil hne] at hlast
      exact hlast part mem_cons_self
    · have hne : parts ≠ [] := by rintro rfl; cases hq
      rw [dropLast_cons_of_ne_nil hne] at hlast
      exact hlast q (mem_cons_of_mem _ hq)
  · rintro ⟨hmin, hrem, hsize, hlast⟩
    refine ⟨fun q hq => ?_, fun q hq => ?_⟩
    · rcases mem_cons.mp hq with rfl | hq
      · exact hmin
      · exact hsize q hq
    · have hne : parts ≠ [] := by rintro rfl; cases hq
      rw [dropLast_cons_of_ne_nil hne] at hq
      rcases mem_cons.mp hq with rfl | hq
      · exact hrem hne
      · exact hlast q hq

theorem flatten_partsPieces_cons (hauto : part.autoName = false)
    (hcount : numParts = cnt + (part :: parts).length) :
      (partsPieces numParts cnt prev (part :: parts)).flatten ++ rest = defText prev part ++
      ((if parts = [] then [] else [44]) ++
        ((partsPieces numParts (cnt + 1) (some part) parts).flatten ++ rest)) := by
  have hmore : (if decide (numParts > cnt + 1) = true then [44] else []) =
      (if parts = [] then [] else [(44 : UInt8)]) := by
    cases parts with
    | nil => rw [if_neg (by simp [hcount]), if_pos rfl]
    | cons q parts => rw [if_pos (by simp [hcount]), if_neg (by simp)]
  rw [partsPieces, flatten_append, flatten_partPieces hauto, hmore]
  simp only [append_assoc]

/-- Every definition has characters. -/
theorem length_le_partsPieces (numParts cnt : ℕ) (prev : Option Part) (parts : List Part) :
    parts.length ≤ (partsPieces numParts cnt prev parts).flatten.length := by
  induction parts generalizing cnt prev with
  | nil => exact Nat.zero_le _
  | cons part parts ih =>
    have hpos : 0 < (partPieces prev part (numParts > cnt + 1)).flatten.length := by
      have hne := length_pos_iff.mpr (memsizeFormat_ne_nil part.size)
      rw [partPieces]
      simp only [flatten_append, length_append, flatten_singleton]
      omega
    have hih := ih (cnt + 1) (some part)
    rw [partsPieces, flatten_append, length_append, length_cons]
    omega

/-- The definitions of a device are parsed as its partitions, exactly if they can be read. -/
theorem partsLoop_pieces (prev : Option Part) (hrest : AtEnd rest)
    (hparts : ∀ part ∈ parts, part.OnDevice mtds id) (hauto : ∀ part ∈ parts, part.autoName = false)
    (hcount : numParts = cnt + parts.length) (hfuel : parts.length < fuel) :
    Yields (partsLoop mtds id fuel ((partsPieces numParts cnt prev parts).flatten ++ rest)
      (endOf prev)) (parts, rest) (Readable parts) := by
  induction parts generalizing fuel cnt prev with
  | nil =>
    obtain _ | fuel := fuel
    · omega
    refine ⟨fun _ => ?_, fun h => absurd ⟨by simp, by simp⟩ h⟩
    have hend : rest.head?.all (· = 59) = true := by
      cases rest with
      | nil => rfl
      | cons b rest => simpa using hrest b rfl
    rw [partsPieces, flatten_nil, nil_append, partsLoop, if_pos hend]
  | cons part parts ih =>
    obtain _ | fuel := fuel
    · omega
    have hpart := hparts part mem_cons_self
    have hnamed := hauto part mem_cons_self
    obtain ⟨hgood, hbad⟩ : Yields (partsLoop mtds id fuel
        ((partsPieces numParts (cnt + 1) _ _).flatten ++ _) _) _ _ :=
      ih (some part) (forall_mem_cons.mp hparts).2 (forall_mem_cons.mp hauto).2
        (by rw [length_cons] at hcount; omega) (by rw [length_cons] at hfuel; omega)
    rw [flatten_partsPieces_cons hnamed hcount, readable_cons]
    generalize hmore : (partsPieces numParts (cnt + 1) (some part) parts).flatten ++
      rest = more at hgood hbad
    -- what separates this definition from the next one
    have hsep : ∀ b ∈ ((if parts = [] then [] else [44]) ++ more).head?, b = 44 ∨ b = 59 := by
      intro b hb
      split at hb
      · next hnil =>
        rw [← hmore, hnil] at hb
        exact .inr (hrest b hb)
      · exact .inl (Option.some.inj hb).symm
    have hnext : nextParse part.size ((if parts = [] then [] else [44]) ++ more) =
        if parts ≠ [] ∧ part.size = sizeRemaining then .error .afterFillUp else .ok more := by
      by_cases hnil : parts = []
      · rw [← hmore, hnil]
        exact nextParse_of_atEnd part.size hrest
      · by_cases hrem : part.size = sizeRemaining <;> simp [nextParse, hnil]
    rw [partsLoop_defText hpart hnamed hsep, hnext]
    constructor
    · rintro ⟨hmin, hrem, hreadable⟩
      rw [if_neg (by omega), if_neg fun h => hrem h.1 h.2]
      dsimp only
      rw [hgood hreadable]
    · intro hnot
      by_cases hmin : part.size < minPartSize
      · exact ⟨_, if_pos hmin⟩
      rw [if_neg hmin]
      by_cases hrem : parts ≠ [] ∧ part.size = sizeRemaining
      · exact ⟨_, by rw [if_pos hrem]⟩
      obtain ⟨e, he⟩ := hbad fun hreadable =>
        hnot ⟨by omega, fun hne heq => hrem ⟨hne, heq⟩, hreadable⟩
      refine ⟨e, ?_⟩
      rw [if_neg hrem]
      dsimp only
      rw [he]

end Definitions

/-! ### Devices -/

section Devices

variable {mtds : DevType → ℕ → Option MtdInfo} {ids : List Mtdids} {dev : Device} {devices : List Device}

/-- Partitions that are in order already stay so. -/
theorem sortAll_ascending (acc : List Part) (h : (acc ++ parts).Pairwise (·.offset < ·.offset)) :
    sortAll acc parts = .ok (acc ++ parts) := by
  have hadd : ∀ (acc : List Part) (part : Part), (∀ q ∈ acc, q.offset < part.offset) →
      partSortAdd part acc = .ok (acc ++ [part]) := by
    intro acc part hlt
    induction acc with
    | nil => rfl
    | cons q acc ih =>
      have hq := hlt q mem_cons_self
      rw [partSortAdd, if_neg (by omega), if_neg (by omega), ih (forall_mem_cons.mp hlt).2]
      rfl
  induction parts generalizing acc with
  | nil => rw [sortAll, append_nil]
  | cons part parts ih =>
    have hlt : ∀ q ∈ acc, q.offset < part.offset := fun q hq =>
      (pairwise_append.mp h).2.2 q hq part mem_cons_self
    rw [sortAll, hadd acc part hlt]
    dsimp only
    rw [ih (acc ++ [part]) (by rwa [append_assoc, singleton_append]), append_assoc, singleton_append]

/-- The partitions of a device start at distinct offsets and have explicit names. -/
structure Device.Plain (dev : Device) : Prop where
  distinct : dev.parts.Pairwise (·.offset ≠ ·.offset)
  named : ∀ part ∈ dev.parts, part.autoName = false

/-- The text of a device, without what separates it from the next one. -/
def deviceText (dev : Device) : List UInt8 :=
  dev.id.mtdId.bytes ++ 58 :: (partsPieces dev.numParts 0 none dev.parts).flatten

/-- A device is parsed as it is, exactly if its definitions can be read. -/
theorem deviceParse_deviceText {before : List Device} {rest : List UInt8}
    (hdev : dev.Accepted mtds ids) (hplain : dev.Plain) (hcount : dev.parts.length < 2 ^ 16)
    (hnew : deviceFind before dev.id.type dev.id.num = none) (hrest : AtEnd rest) :
    Yields (deviceParse mtds ids before (deviceText dev ++ rest)) (dev, rest.tail)
      (Readable dev.parts) := by
  have hle := length_le_partsPieces dev.numParts 0 none dev.parts
  set defs := (partsPieces dev.numParts 0 none dev.parts).flatten
  obtain ⟨htake, hdrop⟩ := takeWhile_ne hdev.colon (defs ++ rest)
  have htext : deviceText dev ++ rest = dev.id.mtdId.bytes ++ 58 :: (defs ++ rest) := by
    rw [deviceText, append_assoc, cons_append]
  have hnum : dev.numParts = dev.parts.length := by rw [hdev.numParts, Nat.mod_eq_of_lt hcount]
  have hlen : dev.parts.length < (defs ++ rest).length + 1 := by
    rw [length_append]
    omega
  have hzero : dev.numParts = 0 + dev.parts.length := by omega
  obtain ⟨hgood, hbad⟩ := partsLoop_pieces none hrest hdev.parts hplain.named hzero hlen
  have hstart : startOffset before dev.id = endOf none := by rw [startOffset, hnew]; rfl
  rw [htext, deviceParse, if_neg (by simp), htake, hdev.found, hdrop, tail_cons]
  dsimp only
  rw [hstart]
  constructor
  · intro hreadable
    have hsorted : dev.parts.Pairwise (·.offset < ·.offset) :=
      (hdev.ascending.and hplain.distinct).imp fun h => lt_of_le_of_ne h.1 h.2
    have hne : dev.parts.length ≠ 0 := fun h => hdev.nonempty (length_eq_zero_iff.mp h)
    rw [hgood hreadable]
    dsimp only
    rw [Nat.mod_eq_of_lt hcount, if_neg hne, sortAll_ascending [] hsorted, ← hnum]
    rfl
  · intro hnot
    obtain ⟨e, he⟩ := hbad hnot
    exact ⟨e, by rw [he]⟩

theorem flatten_devicesPieces_cons :
    (devicesPieces (dev :: devices)).flatten =
      deviceText dev ++ ((if devices = [] then [] else [59]) ++ (devicesPieces devices).flatten) := by
  rw [devicesPieces, deviceText]
  cases devices <;> simp

/-- All devices are parsed as they are, exactly if their definitions can be read. -/
theorem devicesLoop_pieces (before : List Device)
    (hdevices : ∀ dev ∈ devices, dev.Accepted mtds ids)
    (hplain : ∀ dev ∈ devices, dev.Plain) (hcount : ∀ dev ∈ devices, dev.parts.length < 2 ^ 16)
    (hdistinct : Distinct (before ++ devices)) (hfuel : devices.length < fuel) :
    Yields (devicesLoop mtds ids fuel before (devicesPieces devices).flatten) (before ++ devices)
      (∀ dev ∈ devices, Readable dev.parts) := by
  induction devices generalizing fuel before with
  | nil =>
    obtain _ | fuel := fuel
    · omega
    refine ⟨fun _ => ?_, fun h => absurd (by simp) h⟩
    rw [append_nil]
    rfl
  | cons dev devices ih =>
    obtain _ | fuel := fuel
    · omega
    have hnew : deviceFind before dev.id.type dev.id.num = none :=
      List.find?_eq_none.mpr fun d hd => by
        have hne := (pairwise_append.mp hdistinct).2.2 d hd dev mem_cons_self
        simpa using hne
    generalize htail : (if devices = [] then [] else [59]) ++ (devicesPieces devices).flatten = rest
    have hend : AtEnd rest := by
      intro b hb
      rw [← htail] at hb
      split at hb
      · next hnil => rw [hnil] at hb; exact absurd hb (by simp [devicesPieces])
      · exact (Option.some.inj hb).symm
    have hrest : rest.tail = (devicesPieces devices).flatten := by
      rw [← htail]
      split
      · next hnil => rw [hnil]; rfl
      · rfl
    obtain ⟨hgood, hbad⟩ := deviceParse_deviceText (hdevices dev mem_cons_self)
      (hplain dev mem_cons_self) (hcount dev mem_cons_self) hnew hend
    have happ : before ++ dev :: devices = before ++ [dev] ++ devices := by
      rw [append_assoc, singleton_append]
    have hih : Yields (devicesLoop mtds ids fuel _ _) _ _ :=
      ih (before ++ [dev]) (forall_mem_cons.mp hdevices).2 (forall_mem_cons.mp hplain).2
        (forall_mem_cons.mp hcount).2 (happ ▸ hdistinct)
        (by rw [length_cons] at hfuel; omega)
    have hne : deviceText dev ++ rest ≠ [] := by simp [deviceText]
    rw [flatten_devicesPieces_cons, htail, devicesLoop, if_neg hne, forall_mem_cons, happ]
    by_cases hreadable : Readable dev.parts
    · rw [hgood hreadable]
      dsimp only
      rw [hnew, hrest]
      exact ⟨fun h => hih.1 h.2, fun h => hih.2 fun hall => h ⟨hreadable, hall⟩⟩
    · obtain ⟨e, he⟩ := hbad hreadable
      rw [he]
      exact ⟨fun h => absurd h.1 hreadable, fun _ => ⟨e, rfl⟩⟩

end Devices

/-! ### The text in the buffer -/

section Text

variable {mtds : DevType → ℕ → Option MtdInfo} {ids : List Mtdids} {devices : List Device}

theorem ne_zero_of_mem_partsPieces (hb : b ∈ (partsPieces numParts cnt prev parts).flatten) :
    b ≠ 0 := by
  induction parts generalizing cnt prev with
  | nil => exact absurd hb (by simp [partsPieces])
  | cons part parts ih =>
    rw [partsPieces, flatten_append] at hb
    rcases mem_append.mp hb with hb | hb
    · rw [partPieces] at hb
      simp only [flatten_append, mem_append, flatten_singleton] at hb
      rcases hb with (((hb | hb) | hb) | hb) | hb
      · exact (mem_memsizeFormat hb).1
      · split at hb
        · rcases mem_cons.mp (by simpa using hb) with rfl | hb
          · decide
          · exact (mem_memsizeFormat hb).1
        · cases hb
      · split at hb
        · cases hb
        · have hname : b = 40 ∨ b ∈ part.name.bytes ∨ b = 41 := by simpa using hb
          rcases hname with rfl | hb | rfl
          · decide
          · exact part.name.ne_nul hb
          · decide
      · split at hb
        · have hro : b = 114 ∨ b = 111 := by simpa using hb
          rcases hro with rfl | rfl <;> decide
        · cases hb
      · split at hb
        · have hcomma : b = 44 := by simpa using hb
          rw [hcomma]
          decide
        · cases hb
    · exact ih hb

theorem ne_zero_of_mem_devicesPieces (hb : b ∈ (devicesPieces devices).flatten) : b ≠ 0 := by
  induction devices with
  | nil => exact absurd hb (by simp [devicesPieces])
  | cons dev devices ih =>
    rw [flatten_devicesPieces_cons, deviceText] at hb
    simp only [mem_append, mem_cons] at hb
    rcases hb with (hb | rfl | hb) | hb | hb
    · exact dev.id.mtdId.ne_nul hb
    · decide
    · exact ne_zero_of_mem_partsPieces hb
    · split at hb
      · cases hb
      · rw [mem_singleton.mp hb]
        decide
    · exact ih hb

theorem length_le_devicesPieces (devices : List Device) :
    devices.length ≤ (devicesPieces devices).flatten.length ∧
      ∀ dev ∈ devices, dev.parts.length ≤ (devicesPieces devices).flatten.length := by
  induction devices with
  | nil => exact ⟨Nat.zero_le _, fun _ hdev => nomatch hdev⟩
  | cons d devices ih =>
    have hle := length_le_partsPieces d.numParts 0 none d.parts
    rw [flatten_devicesPieces_cons, deviceText, forall_mem_cons]
    simp only [length_append, length_cons]
    refine ⟨by omega, by omega, fun dev hdev => ?_⟩
    have hih := ih.2 dev hdev
    omega

/-- Devices that were accepted, with partitions at distinct offsets and with explicit names, are
parsed again from the text that is generated for them if and only if each partition has the least
size at least, and none but the last of its device has a size that stands for the remaining
space. -/
theorem parseMtdparts_generateMtdparts_iff (mtds : DevType → ℕ → Option MtdInfo) (ids : List Mtdids)
    (text : CStr) (devices : List Device) (out : List UInt8)
    (haccepted : parseMtdparts mtds ids text = .ok devices)
    (hplain : ∀ dev ∈ devices, dev.Plain) (hout : generateMtdparts devices mtdpartsMaxlen = some out)
    (hfits : out.length < mtdpartsMaxlen) :
    parseMtdparts mtds ids (.ofBytes out) = .ok devices ↔
      ∀ dev ∈ devices, (∀ part ∈ dev.parts, minPartSize ≤ part.size) ∧
        ∀ part ∈ dev.parts.dropLast, part.size ≠ sizeRemaining := by
  obtain ⟨⟨hdevices, hdistinct⟩, hne⟩ := parseMtdparts_spec haccepted
  rw [generateMtdparts, if_neg hne] at hout
  obtain ⟨pieces, hpieces, rfl⟩ := Option.map_eq_some_iff.mp hout
  rw [emit_eq] at hpieces
  obtain ⟨-, ⟨⟩⟩ := Option.ite_none_right_eq_some.mp hpieces
  obtain ⟨hle, hparts⟩ := length_le_devicesPieces devices
  set out := (devicesPieces devices).flatten
  have hlen : out.length < mtdpartsMaxlen := by
    rw [length_append] at hfits
    omega
  have hcount : ∀ dev ∈ devices, dev.parts.length < 2 ^ 16 := by
    intro dev hdev
    have hle := hparts dev hdev
    rw [mtdpartsMaxlen] at hlen
    omega
  have hbytes : (CStr.ofBytes (mtdpartsPrefix ++ out)).bytes = mtdpartsPrefix ++ out := by
    refine CStr.bytes_ofBytes fun hmem => ?_
    rcases mem_append.mp hmem with hmem | hmem
    · exact absurd hmem (by decide)
    · exact ne_zero_of_mem_devicesPieces hmem rfl
  have htake : (mtdpartsPrefix ++ out).take 9 = mtdpartsPrefix := rfl
  have hdrop : (mtdpartsPrefix ++ out).drop 9 = out := rfl
  have hnonempty : out ≠ [] := by
    intro hnil
    rw [hnil, length_nil] at hle
    exact hne (length_eq_zero_iff.mp (by omega))
  have hfuel : devices.length < (mtdpartsPrefix ++ out).length + 1 := by
    rw [length_append]
    omega
  obtain ⟨hgood, hbad⟩ := devicesLoop_pieces [] hdevices hplain hcount hdistinct hfuel
  rw [parseMtdparts, hbytes, hdrop, if_neg hnonempty]
  constructor
  · intro hok
    by_contra hnot
    obtain ⟨e, he⟩ := hbad fun hall => hnot fun dev hdev => ⟨(hall dev hdev).size, (hall dev hdev).last⟩
    rw [he] at hok
    cases hok
  · exact fun hall => hgood fun dev hdev => ⟨(hall dev hdev).1, (hall dev hdev).2⟩

/-- A flash with blocks of 1 KiB. -/
def smallBlocks : DevType → ℕ → Option MtdInfo := fun _ _ => some ⟨1024, []⟩

/-- The flash `f`, with this size. -/
def flashOf (size : Fin (2 ^ 64)) : Mtdids := ⟨.nor, 0, size, .ofBytes [102], size.isLt⟩

/-- A partition with a name of one letter. -/
def letterPart (name : UInt8) (size offset : ℕ) : Part := ⟨.ofBytes [name], false, size, offset, 0⟩

/-- The text `mtdparts=f:4k(a),-(b)`. -/
def fillUpText : CStr :=
  .ofBytes (mtdpartsPrefix ++ [102, 58, 52, 107, 40, 97, 41, 44, 45, 40, 98, 41])

/-- The device for that text, where the remaining space has this size. -/
def fillUpDevice (rest : Fin (2 ^ 32)) : Device :=
  ⟨flashOf ⟨4096 + rest, by omega⟩, 2, [letterPart 97 4096 0, letterPart 98 rest 4096]⟩

theorem plain_fillUpDevice (rest : Fin (2 ^ 32)) : ∀ dev ∈ [fillUpDevice rest], dev.Plain := by
  intro dev hdev
  rw [mem_singleton.mp hdev]
  refine ⟨?_, ?_⟩
  · simp [fillUpDevice, letterPart]
  · simp [fillUpDevice, letterPart]

/-- The remaining space is 8 KiB. -/
theorem parseMtdparts_generateMtdparts_iff_eight :
    parseMtdparts smallBlocks [(fillUpDevice 8192).id] fillUpText = .ok [fillUpDevice 8192] ∧
      (parseMtdparts smallBlocks [(fillUpDevice 8192).id] (.ofBytes (mtdpartsPrefix ++
          [102, 58, 52, 107, 40, 97, 41, 44, 56, 107, 40, 98, 41])) = .ok [fillUpDevice 8192] ↔
        ∀ dev ∈ [fillUpDevice 8192], (∀ part ∈ dev.parts, minPartSize ≤ part.size) ∧
          ∀ part ∈ dev.parts.dropLast, part.size ≠ sizeRemaining) := by
  have haccepted : parseMtdparts smallBlocks [(fillUpDevice 8192).id] fillUpText =
    .ok [fillUpDevice 8192] := by
    decide +kernel
  exact ⟨haccepted, parseMtdparts_generateMtdparts_iff smallBlocks _ fillUpText _ _ haccepted
    (plain_fillUpDevice 8192) (by decide +kernel) (by decide +kernel)⟩

/-- The remaining space is 2 KiB: the text is accepted, and the one that is generated from it is
refused. -/
theorem not_parseMtdparts_smallRest :
    parseMtdparts smallBlocks [(fillUpDevice 2048).id] fillUpText = .ok [fillUpDevice 2048] ∧
      (∀ dev ∈ [fillUpDevice 2048], dev.Plain) ∧
      generateMtdparts [fillUpDevice 2048] mtdpartsMaxlen =
        some (mtdpartsPrefix ++ [102, 58, 52, 107, 40, 97, 41, 44, 50, 107, 40, 98, 41]) ∧
      parseMtdparts smallBlocks [(fillUpDevice 2048).id] (.ofBytes (mtdpartsPrefix ++
        [102, 58, 52, 107, 40, 97, 41, 44, 50, 107, 40, 98, 41])) = .error .sizeTooSmall :=
  ⟨by decide +kernel, plain_fillUpDevice 2048, by decide +kernel, by decide +kernel⟩

end Text

end UBoot.Mtd
