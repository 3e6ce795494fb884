import UBoot.Common.LittleEndian
import UBoot.Serial.SRecord

/-!
# S-records as they are read back

The lines that `save_serial` sends for a range of memory are read by `load_serial` as the bytes of
that range, at the same addresses.
-/

namespace UBoot.Serial

open UBoot.Common UBoot.Lib List

variable {c : UInt8} {bs : List UInt8} {address : ℕ}

/-! ### Pairs of digits -/

section Digits

variable {n : ℕ}

/-- The two digits of a byte. -/
def hexPair (b : UInt8) : List UInt8 := [hexUpper (b.toNat / 16), hexUpper (b.toNat % 16)]

/-- A character that `read_record` takes into a line. -/
def InLine (c : UInt8) : Prop := (c ≠ 13 ∧ c ≠ 10) ∧ (c ≠ 0 ∧ c ≠ 3)

theorem hexUpper_spec (h : n < 16) : xdigitValue (hexUpper n) = some n ∧ InLine (hexUpper n) := by
  have hall : ∀ k : Fin 16, xdigitValue (hexUpper k) = some k.val ∧ InLine (hexUpper k) := by
    unfold InLine
    decide +kernel
  exact hall ⟨n, h⟩

theorem inLine_of_mem_flatMap (hc : c ∈ bs.flatMap hexPair) : InLine c := by
  obtain ⟨b, -, hb⟩ := mem_flatMap.mp hc
  have hlt := b.toNat_lt
  rcases mem_pair.mp hb with rfl | rfl <;> exact (hexUpper_spec (by omega)).2

theorem hex2Bin_hexPair (b : UInt8) (rest : List UInt8) :
    hex2Bin (hexPair b ++ rest) = some b.toNat := by
  have hb := b.toNat_lt
  rw [hexPair, cons_append, cons_append, hex2Bin, (hexUpper_spec (by omega)).1,
    (hexUpper_spec (by omega)).1]
  exact congrArg some (Nat.div_add_mod' b.toNat 16)

theorem drop_hexPair (b : UInt8) (rest : List UInt8) : (hexPair b ++ rest).drop 2 = rest := rfl

theorem hexBytesIn_flatMap (bs rest : List UInt8) :
    hexBytesIn bs.length (bs.flatMap hexPair ++ rest) = some (bs, rest) := by
  induction bs with
  | nil => rfl
  | cons b bs ih =>
    rw [length_cons, hexBytesIn, flatMap_cons, append_assoc, hex2Bin_hexPair]
    dsimp only
    rw [drop_hexPair, ih, Option.map_some, UInt8.ofNat_toNat]

/-- Pairs of digits are bytes. -/
theorem hexDigits_two_mul (k n : ℕ) :
    hexDigits (2 * k) n = (leBytes k n).reverse.flatMap hexPair := by
  induction k generalizing n with
  | zero => rfl
  | succ k ih =>
    rw [show 2 * (k + 1) = 2 * k + 1 + 1 by omega, hexDigits, hexDigits, Nat.div_div_eq_div_mul, ih,
      leBytes, reverse_cons, flatMap_append, append_assoc, flatMap_singleton, hexPair, toNat_ofNat_mod,
      show n % 256 / 16 = n / 16 % 16 by omega, show n % 256 % 16 = n % 16 by omega]
    rfl

theorem fmtX_eq {w : ℕ} (hw : 0 < w) (h : n < 16 ^ w) : fmtX w n = hexDigits w n := by
  have hlog : Nat.log 16 n < w := by
    by_cases h0 : n = 0
    · rw [h0]
      exact hw
    · exact Nat.log_lt_of_lt_pow h0 h
  rw [fmtX, max_eq_left hlog]

theorem fmtX_two (h : n < 256) : fmtX 2 n = hexPair (UInt8.ofNat n) := by
  rw [fmtX_eq (by decide) h, show 2 = 2 * 1 by rfl, hexDigits_two_mul, leBytes, Nat.mod_eq_of_lt h]
  exact flatMap_singleton _ _

/-- The bytes of an address, highest first. -/
def addrBytes (address : ℕ) : List UInt8 := (leBytes 4 address).reverse

theorem fmtX_eight (h : n < 2 ^ 32) : fmtX 8 n = (addrBytes n).flatMap hexPair := by
  rw [fmtX_eq (by decide) (by rwa [show (16 : ℕ) ^ 8 = 2 ^ 32 by rfl])]
  exact hexDigits_two_mul 4 n

theorem length_addrBytes (n : ℕ) : (addrBytes n).length = 4 := by simp [addrBytes]

theorem ofBe_addrBytes (h : n < 2 ^ 32) : ofBe (addrBytes n) = n := by
  simp only [addrBytes, leBytes, reverse_cons, reverse_nil, nil_append, cons_append, ofBe,
    foldl_cons, foldl_nil, toNat_ofNat_mod]
  omega

end Digits

/-! ### Checksums -/

section Checksum

theorem ofNat_sum_toNat (bs : List UInt8) : UInt8.ofNat (bs.map UInt8.toNat).sum = bs.sum := by
  induction bs with
  | nil => rfl
  | cons b bs ih => rw [map_cons, sum_cons, sum_cons, UInt8.ofNat_add, ih, UInt8.ofNat_toNat]

theorem addedBytes_eq (n x : ℕ) : addedBytes n x = ((leBytes n x).map UInt8.toNat).sum := by
  induction n generalizing x with
  | zero => rfl
  | succ n ih =>
    have htail : (fun i => x / 2 ^ (8 * i) % 256) ∘ Nat.succ = fun i => x / 256 / 2 ^ (8 * i) % 256 := by
      funext i
      rw [Function.comp_apply, Nat.mul_succ, Nat.pow_add, Nat.div_div_eq_div_mul,
        Nat.mul_comm (2 ^ (8 * i))]
    rw [leBytes, map_cons, sum_cons, toNat_ofNat_mod, ← ih, addedBytes, range_succ_eq_map, map_cons,
      sum_cons, map_map, htail, addedBytes, Nat.pow_zero, Nat.div_one]

theorem ofNat_complement (n : ℕ) : UInt8.ofNat (255 - n % 256) = ~~~(UInt8.ofNat n) := by
  apply UInt8.toNat_inj.mp
  rw [UInt8.toNat_not, UInt8.toNat_ofNat', Nat.mod_eq_of_lt (by omega)]
  rfl

end Checksum

/-! ### One record -/

section Record

variable {address : ℕ} {bs : List UInt8}

/-- What is in a record behind its type. -/
def recordBytes (address : ℕ) (bs : List UInt8) : List UInt8 :=
  UInt8.ofNat (5 + bs.length) :: (addrBytes address ++ bs)

/-- The line of a data record. -/
def dataLine (address : ℕ) (bs : List UInt8) : List UInt8 :=
  [83, 51] ++ (recordBytes address bs ++ [~~~(recordBytes address bs).sum]).flatMap hexPair

/-- The variables of `save_serial` when some bytes of a record are collected. -/
def collected (address : ℕ) (bs : List UInt8) : Save :=
  ⟨address, bs.length, (bs.map UInt8.toNat).sum, bs.flatMap hexPair⟩

theorem record_collected (haddr : address < 2 ^ 32) (hlen : bs.length ≤ 16) :
    (collected address bs).record = dataLine address bs ++ [10] := by
  have hchk : UInt8.ofNat (255 - ((bs.map UInt8.toNat).sum + addedBytes 2 (4 + bs.length + 1) +
      addedBytes 4 address) % 256) = ~~~(recordBytes address bs).sum := by
    rw [ofNat_complement, recordBytes, sum_cons, addrBytes,
      UInt8.ofNat_add, UInt8.ofNat_add, ofNat_sum_toNat, addedBytes_eq, addedBytes_eq, ofNat_sum_toNat,
      ofNat_sum_toNat]
    have htwo : (leBytes 2 (4 + bs.length + 1)).sum = UInt8.ofNat (5 + bs.length) := by
      rw [leBytes, leBytes, leBytes, Nat.mod_eq_of_lt (by omega : 4 + bs.length + 1 < 256),
        Nat.div_eq_of_lt (by omega : 4 + bs.length + 1 < 256), show 4 + bs.length + 1 = 5 +
        bs.length by omega]
      simp
    congr 1
    grind
  rw [Save.record, collected]
  dsimp only
  rw [fmtX_two (by omega), fmtX_two (by omega), fmtX_eight haddr, hchk, dataLine, recordBytes,
    show 4 + bs.length + 1 = 5 + bs.length by omega]
  simp only [flatMap_append, flatMap_cons, flatMap_nil, append_assoc, append_nil]

theorem inLine_of_mem_dataLine (hc : c ∈ dataLine address bs) : InLine c := by
  rcases mem_append.mp hc with hc | hc
  · rcases mem_pair.mp hc with rfl | rfl <;> exact ⟨by decide, by decide⟩
  · exact inLine_of_mem_flatMap hc

theorem length_flatMap_hexPair (l : List UInt8) : (l.flatMap hexPair).length = 2 * l.length := by
  simp [hexPair, mul_comm]

/-- A data record is decoded as what it was made of. -/
theorem srecDecode_dataLine (haddr : address < 2 ^ 32) (hlen : bs.length ≤ 16) :
    srecDecode (dataLine address bs) = .ok ⟨.data4, bs.length, address, bs⟩ := by
  have hcount : (UInt8.ofNat (5 + bs.length)).toNat = 5 + bs.length := UInt8.toNat_ofNat_of_lt' (by
    show 5 + bs.length < 256
    omega)
  have htext : (dataLine address bs).dropWhile (· ≠ 83) = 83 :: 51 ::
      (hexPair (UInt8.ofNat (5 + bs.length)) ++
        ((addrBytes address).flatMap hexPair ++
        (bs.flatMap hexPair ++ (hexPair (~~~(recordBytes address bs).sum) ++ [])))) := by
    rw [dataLine]
    simp only [flatMap_append]
    exact dropWhile_cons_of_neg (by simp)
  have haddrIn := hexBytesIn_flatMap (addrBytes address)
    (bs.flatMap hexPair ++ (hexPair (~~~(recordBytes address bs).sum) ++ []))
  rw [length_addrBytes] at haddrIn
  rw [srecDecode, htext, tail_cons]
  dsimp only
  rw [hex2Bin_hexPair, hcount]
  rw [show recordType 51 = some (.data4, 4) from rfl]
  dsimp only
  rw [drop_hexPair, haddrIn]
  dsimp only
  rw [if_neg (by decide), show (((5 + bs.length : ℕ) : ℤ) - ((4 : ℕ) + 1)) = bs.length by push_cast; omega,
    Int.toNat_natCast, hexBytesIn_flatMap]
  dsimp only
  rw [hex2Bin_hexPair]
  dsimp only
  rw [UInt8.ofNat_toNat, ofBe_addrBytes haddr, if_neg]
  rw [recordBytes]
  grind

end Record

/-! ### The records of a range -/

section Sent

/-- The data records of a list of bytes, 16 bytes in each but the last. -/
def dataRecords (address : ℕ) (bs : List UInt8) : List UInt8 :=
  if h : bs.length ≤ 16 then dataLine address bs ++ [10]
  else dataLine address (bs.take 16) ++ [10] ++ dataRecords (address + 16) (bs.drop 16)
termination_by bs.length
decreasing_by
  rw [length_drop]
  omega

theorem collect_collected {mem : ℕ → UInt8} (hlt : address + bs.length < 2 ^ 64) :
    (collected address bs).collect mem = collected address (bs ++ [mem (address + bs.length)]) := by
  have hb := (mem (address + bs.length)).toNat_lt
  rw [Save.collect, collected, collected]
  rw [Nat.mod_eq_of_lt hlt, Nat.mod_eq_of_lt (by omega : (mem (address + bs.length)).toNat / 16 < 16),
    length_append, map_append, sum_append, flatMap_append, flatMap_singleton, hexPair]
  simp only [map_cons, map_nil, sum_cons, sum_nil, add_zero, length_singleton]

/-- The loop sends the bytes that are collected and those still to come. -/
theorem saveLoop_collected {mem : ℕ → UInt8} {count : ℕ} (bs : List UInt8) (hlen : bs.length < 16)
    (hcount : 0 < count) (hlt : address + bs.length + count ≤ 2 ^ 32) :
    saveLoop mem count (collected address bs) = dataRecords address
      (bs ++ load mem (address + bs.length) count) := by
  induction count generalizing address bs with
  | zero => omega
  | succ count ih =>
    have hload : bs ++ load mem (address + bs.length) (count + 1) =
        (bs ++ [mem (address + bs.length)]) ++ load mem (address + bs.length + 1) count := by
      rw [add_comm count 1, ← load_append, append_assoc]
      rfl
    have hlen' : (bs ++ [mem (address + bs.length)]).length = bs.length + 1 := by
      rw [length_append, length_singleton]
    rw [saveLoop, collect_collected (by omega), hload]
    generalize bs ++ [mem (address + bs.length)] = more at hlen' ⊢
    rw [show (collected address more).reclen = more.length from rfl, record_collected
      (by omega) (by omega)]
    by_cases hzero : count = 0
    · -- the last record
      rw [if_pos (.inr hzero), if_pos hzero, hzero, show load mem (address + bs.length + 1)
        0 = [] from rfl, append_nil, append_nil, dataRecords, dif_pos (by omega)]
    · by_cases hfull : more.length = 16
      · have hreset : (collected address more).reset = collected (address + 16) [] := by
          rw [Save.reset, collected]
          dsimp only
          rw [hfull, Nat.mod_eq_of_lt (by omega)]
          rfl
        have hnext : saveLoop mem count (collected (address + 16) []) = _ :=
          ih [] (by decide) (by omega) (by rw [length_nil]; omega)
        rw [if_pos (.inl hfull), if_neg hzero, hreset, hnext, dataRecords.eq_def address
          (more ++ _), dif_neg (by rw [length_append, length_load]; omega),
          take_left' hfull, drop_left' hfull,
          nil_append, length_nil, show address + bs.length + 1 = address + 16 + 0 by omega]
      · rw [if_neg (by omega), ih more (by omega) (by omega) (by omega), hlen', ← add_assoc]

end Sent

/-! ### Reading them back -/

section Received

variable {crlf : Bool} {rest : List UInt8} {s : Load} {r : LoadResult}

theorem readRecord_line {len : ℕ} {line : List UInt8} {e : UInt8} (hline : ∀ c ∈ line, InLine c)
    (hlen : line.length < len) (he : e = 13 ∨ e = 10) :
    readRecord len (line ++ e :: rest) = .line line rest := by
  induction line generalizing len with
  | nil =>
    obtain _ | len := len
    · omega
    rw [nil_append, readRecord, if_pos he]
  | cons c line ih =>
    rw [length_cons] at hlen
    obtain _ | len := len
    · omega
    obtain ⟨hend, habort⟩ := hline c mem_cons_self
    rw [cons_append, readRecord, if_neg (by simp [hend]), if_neg (by simp [habort]),
      ih (forall_mem_cons.mp hline).2 (by omega)]
    rfl

/-- What the rest of the characters leads to. Enough rounds are allowed for all of them. -/
def LoadsTo (offset : ℕ) (chars : List UInt8) (s : Load) (r : LoadResult) : Prop :=
  ∀ fuel, chars.length < fuel → loadLoop offset fuel chars s = r

/-- A line, and the empty line that may follow a carriage return. -/
theorem loadsTo_line {offset : ℕ} (line : List UInt8) {s' : Load} (hline : ∀ c ∈ line, InLine c)
    (hstep : ∀ fuel chars e, e = 13 ∨ e = 10 →
      loadLoop offset (fuel + 1) (line ++ e :: chars) s = loadLoop offset fuel chars s')
    (hrest : LoadsTo offset rest s' r) :
    LoadsTo offset ((line ++ [10]).flatMap (putc crlf) ++ rest) s r := by
  have hplain : line.flatMap (putc crlf) = line :=
    (flatMap_congr fun c hc => if_neg fun h => (hline c hc).1.2 h.2).trans (flatMap_singleton' line)
  intro fuel hfuel
  rw [flatMap_append, hplain, flatMap_singleton] at hfuel ⊢
  cases crlf with
  | false =>
    have hput : putc false 10 = [10] := rfl
    rw [hput, append_assoc, singleton_append] at hfuel ⊢
    rw [length_append, length_cons] at hfuel
    obtain _ | fuel := fuel
    · omega
    rw [hstep fuel rest 10 (.inr rfl)]
    exact hrest fuel (by omega)
  | true =>
    have hput : putc true 10 = [13, 10] := rfl
    rw [hput, append_assoc, cons_append, singleton_append] at hfuel ⊢
    rw [length_append, length_cons, length_cons] at hfuel
    obtain ⟨fuel, rfl⟩ : ∃ k, fuel = k + 1 + 1 := ⟨fuel - 2, by omega⟩
    rw [hstep (fuel + 1) (10 :: rest) 13 (.inl rfl)]
    exact hrest fuel (by omega)

/-- A data record stores its bytes. -/
theorem loadsTo_dataLine
    (haddr : address < 2 ^ 32) (hlen : bs.length ≤ 16)
    (hrest : LoadsTo 0 rest (s.storeData address bs) r) :
    LoadsTo 0 ((dataLine address bs ++ [10]).flatMap (putc crlf) ++ rest) s r := by
  have hline : ∀ c ∈ dataLine address bs, InLine c := fun c => inLine_of_mem_dataLine
  have hlt : (dataLine address bs).length < srecMaxreclen := by
    simp only [dataLine, recordBytes, length_append, length_flatMap_hexPair, length_cons,
      length_nil, length_addrBytes, srecMaxreclen]
    omega
  refine loadsTo_line _ hline (fun fuel chars e he => ?_) hrest
  rw [loadLoop, readRecord_line hline hlt he]
  dsimp only
  rw [srecDecode_dataLine haddr hlen]
  dsimp only
  rw [if_neg (by omega), add_zero, Nat.mod_eq_of_lt (by omega)]

theorem storeData_eq (s : Load) (hpos : 0 < address + bs.length)
    (hlt : address + bs.length ≤ 2 ^ 32) : s.storeData address bs =
      ⟨store s.mem address bs, min address s.startAddr, max (address + bs.length - 1) s.endAddr⟩ := by
  rw [Load.storeData, Load.mk.injEq]
  refine ⟨rfl, ?_, ?_⟩
  · split <;> omega
  · split <;> omega

/-- Storing a range in two parts. -/
theorem storeData_append (bs bs' : List UInt8) (s : Load) (hpos : 0 < bs.length)
    (hlt : address + (bs ++ bs').length ≤ 2 ^ 32) :
    (s.storeData address bs).storeData (address + bs.length) bs' = s.storeData address (bs ++ bs') := by
  have hlen : (bs ++ bs').length = bs.length + bs'.length := length_append
  rw [storeData_eq s (by omega) (by omega), storeData_eq s (by omega) hlt,
    storeData_eq _ (by omega) (by omega),
    store_append, Load.mk.injEq]
  dsimp only
  exact ⟨rfl, by omega, by omega⟩

/-- All data records store the bytes of the range. -/
theorem loadsTo_dataRecords
    (hpos : 0 < bs.length) (hlt : address + bs.length ≤ 2 ^ 32)
    (hrest : LoadsTo 0 rest (s.storeData address bs) r) :
    LoadsTo 0 ((dataRecords address bs).flatMap (putc crlf) ++ rest) s r := by
  induction hn : bs.length using Nat.strongRecOn generalizing address bs s with
  | ind n ih =>
    rw [dataRecords]
    split
    · exact loadsTo_dataLine (by omega) (by assumption) hrest
    have htake : (bs.take 16).length = 16 := by rw [length_take]; omega
    have hdrop : (bs.drop 16).length = n - 16 := by rw [length_drop, hn]
    have hsplit := storeData_append (bs.take 16) (bs.drop 16) s (by omega)
      (by rw [take_append_drop]; exact hlt)
    rw [take_append_drop, htake] at hsplit
    rw [flatMap_append, append_assoc]
    refine loadsTo_dataLine (by omega) (by omega) ?_
    refine ih (n - 16) (by omega) (by omega) (by omega) ?_ hdrop
    rw [hsplit]
    exact hrest

theorem loadsTo_srec3End (s : Load) :
    LoadsTo 0 (srec3End.flatMap (putc crlf)) s
      (.loaded 0 ((s.endAddr + (2 ^ 64 - s.startAddr) + 1) % 2 ^ 64) s.mem) := by
  intro fuel hfuel
  obtain _ | fuel := fuel
  · omega
  cases crlf <;> rfl

/-- What `save_serial` sends for a range is loaded as the bytes of that range, at their addresses
and nowhere else, and the size of the file is that of the range. -/
theorem loadSerial_saveSerial (crlf : Bool) (mem mem' : ℕ → UInt8) (address count : ℕ)
    (hcount : 1 ≤ count) (hlt : address + count ≤ 2 ^ 32) :
    loadSerial 0 (saveSerial crlf mem address count) mem' =
      .loaded 0 count (store mem' address (load mem address count)) := by
  set bytes := load mem address count
  have hsave : saveLoop mem count ⟨address, 0, 0, []⟩ = dataRecords address bytes :=
    saveLoop_collected [] (by decide) hcount (by rw [length_nil]; omega)
  have hlen : bytes.length = count := length_load _ _ _
  have hstored : (⟨mem', 2 ^ 64 - 1, 0⟩ : Load).storeData address bytes =
      ⟨store mem' address bytes, address, address + count - 1⟩ := by
    rw [storeData_eq _ (by omega) (by omega), hlen]
    dsimp only
    rw [min_eq_left (by omega), max_eq_left (by omega)]
  have hsize : (address + count - 1 + (2 ^ 64 - address) + 1) % 2 ^ 64 = count := by omega
  have hend : LoadsTo 0 (srec3End.flatMap (putc crlf)) _ _ :=
    loadsTo_srec3End ⟨store mem' address bytes, address, address + count - 1⟩
  rw [hsize, ← hstored] at hend
  rw [saveSerial, hsave, flatMap_append, flatMap_append, append_assoc]
  exact loadsTo_line srec3Start.dropLast (by unfold InLine; decide +kernel)
    (by rintro _ _ _ (rfl | rfl) <;> rfl)
    (loadsTo_dataRecords (by omega) (by omega) hend) _ (Nat.lt_succ_self _)

/-- Twenty bytes, in two records. -/
theorem loadSerial_saveSerial_twenty :
    (1 ≤ 20 ∧ 4096 + 20 ≤ 2 ^ 32) ∧ loadSerial 0 (saveSerial true (fun a => UInt8.ofNat a) 4096 20)
        (fun _ => 0) = .loaded 0 20 (store (fun _ => 0) 4096 (load (fun a => UInt8.ofNat a) 4096 20)) :=
  ⟨by decide,
    loadSerial_saveSerial true (fun a => UInt8.ofNat a) (fun _ => 0) 4096 20 (by decide) (by decide)⟩

end Received

end UBoot.Serial
