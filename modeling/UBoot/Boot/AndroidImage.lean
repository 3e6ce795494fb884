import UBoot.Common.Align
import UBoot.Common.LittleEndian

/-!
# Android boot images

`imgread kernel` reads an image from flash, first one megabyte and then the rest, whose size it
computes from the header with 32-bit sums. `bootm` computes from the same header where the kernel,
the ramdisk and the device tree are, with 64-bit sums of 32-bit alignments.
-/

namespace UBoot.Boot

open UBoot.Common List

/-- Memory by 64-bit addresses. -/
abbrev Mem := UInt64 → UInt8

/-- A partition as `store_read_ops` sees it: its bytes, and the reads that succeed. -/
structure StorePart where
  bytes : ℕ → UInt8
  succeeds : UInt64 → ℕ → Bool

/-- The bytes of a string. -/
def textBytes (s : String) : List UInt8 := s.toUTF8.data.toList

section

variable (part : StorePart) (mem : Mem) (hdr : UInt64)

/-- The bytes at an address. -/
def bytesAt (a : UInt64) (n : ℕ) : List UInt8 :=
  (List.range n).map fun i => mem (a + UInt64.ofNat i)

/-- A word of the little-endian memory. -/
def u32At (a : UInt64) : UInt32 := UInt32.ofNat (ofLe (bytesAt mem a 4))

/-- `store_read_ops`, if it succeeds. -/
def storeReadOps (buf off : UInt64) (n : ℕ) : Mem := fun a =>
  if (a - buf).toNat < n then part.bytes (off.toNat + (a - buf).toNat) else mem a

/-! ### The header -/

/-- The fields of `struct andr_img_hdr` that describe the layout. -/
structure AndrImgHdr where
  kernelSize : UInt32
  ramdiskSize : UInt32
  secondSize : UInt32
  pageSize : UInt32
deriving DecidableEq

/-- The header at an address. -/
def andrImgHdr : AndrImgHdr where
  kernelSize := u32At mem (hdr + 8)
  ramdiskSize := u32At mem (hdr + 16)
  secondSize := u32At mem (hdr + 24)
  pageSize := u32At mem (hdr + 36)

/-- `genimg_get_format` finds an Android image. The other formats have other magics. -/
def isAndroid : Bool := bytesAt mem hdr 8 = textBytes "ANDROID!"

/-- The total length of `n` encrypted blocks. -/
def encBlkSum : ℕ → UInt64 → UInt32
  | 0, _ => 0
  | n + 1, blk => u32At mem (blk + 16) + encBlkSum n (blk + 96)

/-- The image has the header of an encrypted one. -/
def isSecure : Bool := bytesAt mem (hdr + 1024) 8 = textBytes "AMLSECU!"

/-- `_aml_get_secure_boot_kernel_size`: an error, or the size, 0 if the image is not encrypted. -/
def amlGetSecureBootKernelSize : Option UInt32 :=
  if ¬ isSecure mem hdr then some 0
  else if u32At mem (hdr + 1032) ≠ 0x0905 then none
  else some (2048 + encBlkSum mem (u32At mem (hdr + 1036)).toNat (hdr + 1056))

/-! ### Reading the image -/

/-- `IMG_PRELOAD_SZ`. -/
def imgPreloadSz : UInt32 := 0x100000

/-- What a command has read: its return value, the memory after it, and the ranges that were
filled. -/
structure ImgRead where
  rc : ℕ
  mem : Mem
  reads : List (UInt64 × ℕ)

/-- The size of an image that is not encrypted. -/
def actualBootImgSz (h : AndrImgHdr) : UInt32 :=
  let kernelSize := (h.kernelSize + (h.pageSize - 1) + h.pageSize) &&& ~~~(h.pageSize - 1)
  let ramdiskSize := (h.ramdiskSize + (h.pageSize - 1)) &&& ~~~(h.pageSize - 1)
  kernelSize + ramdiskSize + h.secondSize

/-- `do_image_read_kernel` after the first megabyte and the size are known. -/
def readRest (loadaddr off : UInt64) (size : UInt32) : ImgRead :=
  let first := (loadaddr, imgPreloadSz.toNat)
  if size > imgPreloadSz then
    let buf := loadaddr + imgPreloadSz.toUInt64
    let leftSz := (size - imgPreloadSz).toNat
    if part.succeeds off leftSz then ⟨0, storeReadOps part mem buf off leftSz, [first, (buf, leftSz)]⟩
    else ⟨173, mem, [first]⟩
  else ⟨0, mem, [first]⟩

/-- `do_image_read_kernel`. -/
def doImageReadKernel (loadaddr flashReadOff : UInt64) : ImgRead :=
  if ¬ part.succeeds flashReadOff imgPreloadSz.toNat then ⟨133, mem, []⟩
  else
    let mem := storeReadOps part mem loadaddr flashReadOff imgPreloadSz.toNat
    let off := flashReadOff + imgPreloadSz.toUInt64
    if ¬ isAndroid mem loadaddr then ⟨140, mem, [(loadaddr, imgPreloadSz.toNat)]⟩
    else
      match amlGetSecureBootKernelSize mem loadaddr with
      | none => ⟨147, mem, [(loadaddr, imgPreloadSz.toNat)]⟩
      | some secureKernelImgSz =>
        readRest part mem loadaddr off
          (if secureKernelImgSz ≠ 0 then secureKernelImgSz else actualBootImgSz (andrImgHdr mem loadaddr))

/-! ### Using the image -/

/-- `ALIGN` of a 32-bit number. -/
def align (x a : UInt32) : UInt32 := (x + (a - 1)) &&& ~~~(a - 1)

/-- What `android_image_get_kernel` sets: the kernel, and the fields of `images`. -/
structure Images where
  osData : UInt64
  osLen : UInt64
  rdStart : UInt64
  ftAddr : UInt64
  ftLen : UInt64

/-- `android_image_get_kernel`, which fails if it cannot allocate the new boot arguments. -/
def androidImageGetKernel (malloc : Bool) (mem : Mem) (hdr : UInt64) : Option Images :=
  if ¬ malloc then none
  else
    let h := andrImgHdr mem hdr
    let rdStart := hdr + h.pageSize.toUInt64 + (align h.kernelSize h.pageSize).toUInt64
    some {
      osData := hdr + h.pageSize.toUInt64
      osLen := h.kernelSize.toUInt64
      rdStart
      ftAddr := rdStart + (align h.ramdiskSize h.pageSize).toUInt64
      ftLen := h.secondSize.toUInt64 }

/-- `android_image_get_ramdisk`. -/
def androidImageGetRamdisk : Option (UInt64 × UInt64) :=
  let h := andrImgHdr mem hdr
  if h.ramdiskSize = 0 then none
  else some (hdr + h.pageSize.toUInt64 + (align h.kernelSize h.pageSize).toUInt64, h.ramdiskSize.toUInt64)

/-! ### What is loaded and what is used -/

/-- Every byte of the range was read. -/
def Within (reads : List (UInt64 × ℕ)) (start len : UInt64) : Prop :=
  ∀ a : UInt64, (a - start).toNat < len.toNat → ∃ r ∈ reads, (a - r.1).toNat < r.2

/-- If the command returns 0, the ranges that are used later were read. -/
def LoadsWhatIsUsed (loadaddr off : UInt64) : Prop :=
  let r := doImageReadKernel part mem loadaddr off
  r.rc = 0 →
    (∀ malloc images, androidImageGetKernel malloc r.mem loadaddr = some images →
      Within r.reads images.osData images.osLen ∧ Within r.reads images.ftAddr images.ftLen) ∧
    ∀ rd, androidImageGetRamdisk r.mem loadaddr = some rd → Within r.reads rd.1 rd.2

/-- The header that the first read puts into memory. -/
def loadedHdr (loadaddr off : UInt64) : AndrImgHdr :=
  andrImgHdr (storeReadOps part mem loadaddr off imgPreloadSz.toNat) loadaddr

/-- The layout of the image, without wraparound. -/
def layoutSize (h : AndrImgHdr) : ℕ :=
  h.pageSize.toNat + roundUp h.kernelSize.toNat h.pageSize.toNat +
    roundUp h.ramdiskSize.toNat h.pageSize.toNat + h.secondSize.toNat

end

section Sizes

variable {h : AndrImgHdr} {k : ℕ}

theorem toNat_and_not {a : UInt32} (ha : a.toNat = 2 ^ k) (x : UInt32) :
    (x &&& ~~~(a - 1)).toNat = roundDown x.toNat a.toNat :=
  toNat_and_not_sub_one ha x.toBitVec

theorem dvd_of_toNat {a : UInt32} (ha : a.toNat = 2 ^ k) : a.toNat ∣ 2 ^ 32 ∧ 0 < a.toNat ∧
    a.toNat ≤ 2 ^ 31 := by
  have hlt : 2 ^ k < 2 ^ 32 := ha ▸ a.toNat_lt
  have hk : k < 32 := (Nat.pow_lt_pow_iff_right (by decide)).mp hlt
  rw [ha]
  exact ⟨Nat.pow_dvd_pow 2 hk.le, Nat.two_pow_pos k, Nat.pow_le_pow_right (by decide) (by omega)⟩

theorem toNat_add_sub_one {a : UInt32} (ha : 0 < a.toNat) (x : UInt32) :
    (x + (a - 1)).toNat = (x.toNat + a.toNat - 1) % 2 ^ 32 := by
  rw [UInt32.toNat_add, UInt32.toNat_sub_of_le _ _ (by rw [UInt32.le_iff_toNat_le]; exact ha)]
  congr 1
  exact (Nat.add_sub_assoc ha _).symm

theorem toNat_align {a : UInt32} (ha : a.toNat = 2 ^ k) (x : UInt32) :
    (align x a).toNat = roundUp x.toNat a.toNat % 2 ^ 32 := by
  obtain ⟨hdvd, hpos, -⟩ := dvd_of_toNat ha
  rw [align, toNat_and_not ha, toNat_add_sub_one hpos, roundDown_mod hdvd, roundUp]

/-- The size that is read is the size of the layout, cut to 32 bits. -/
theorem toNat_actualBootImgSz (hpage : h.pageSize.toNat = 2 ^ k) :
    (actualBootImgSz h).toNat = layoutSize h % 2 ^ 32 := by
  obtain ⟨hdvd, hpos, -⟩ := dvd_of_toNat hpage
  have hkernel : ((h.kernelSize + (h.pageSize - 1) + h.pageSize) &&& ~~~(h.pageSize - 1)).toNat =
      (h.pageSize.toNat + roundUp h.kernelSize.toNat h.pageSize.toNat) % 2 ^ 32 := by
    rw [toNat_and_not hpage, UInt32.toNat_add, toNat_add_sub_one hpos, Nat.mod_add_mod,
      roundDown_mod hdvd, roundDown_add_self hpos, roundUp, add_comm h.pageSize.toNat]
  have hramdisk := toNat_align hpage h.ramdiskSize
  rw [align] at hramdisk
  rw [actualBootImgSz, UInt32.toNat_add, UInt32.toNat_add, layoutSize]
  omega

end Sizes

/-! ### Ranges -/

section Ranges

variable {part : StorePart} {mem : Mem} {loadaddr off : UInt64} {size : UInt32} {start : UInt64} {o : ℕ}

/-- The bytes that a successful command has read. -/
theorem readRest_covers (hrc : (readRest part mem loadaddr off size).rc = 0) (a : UInt64) :
    (∃ r ∈ (readRest part mem loadaddr off size).reads, (a - r.1).toNat < r.2) ↔
      (a - loadaddr).toNat < max (2 ^ 20) size.toNat := by
  have hpre : imgPreloadSz.toNat = 2 ^ 20 := by decide
  rw [readRest] at hrc ⊢
  dsimp only at hrc ⊢
  by_cases hsize : size > imgPreloadSz
  · rw [if_pos hsize] at hrc ⊢
    have hleft : (size - imgPreloadSz).toNat = size.toNat - 2 ^ 20 := by
      rw [UInt32.toNat_sub_of_le _ _ (UInt32.le_of_lt hsize), hpre]
    split at hrc
    · rename_i hok
      rw [if_pos hok]
      have hbase := loadaddr.toNat_lt
      have hbuf : imgPreloadSz.toUInt64.toNat = 2 ^ 20 := by decide
      simp only [mem_cons, not_mem_nil, or_false, exists_eq_or_imp, exists_eq_left,
        UInt64.toNat_sub, UInt64.toNat_add]
      omega
    · exact absurd (show (173 : ℕ) = 0 from hrc) (by decide)
  · rw [if_neg hsize, hpre]
    have hle : size.toNat ≤ 2 ^ 20 := by
      exact not_lt.mp fun h => hsize (UInt32.lt_iff_toNat_lt.mpr h)
    rw [max_eq_left hle]
    simp only [mem_singleton, exists_eq_left]

/-- The second read leaves the first megabyte as it is. -/
theorem readRest_mem {a : UInt64} (ha : (a - loadaddr).toNat < 2 ^ 20) :
    (readRest part mem loadaddr off size).mem a = mem a := by
  rw [readRest]
  dsimp only
  split
  · split
    · have hleft := (size - imgPreloadSz).toNat_lt
      have hbuf : imgPreloadSz.toUInt64.toNat = 2 ^ 20 := by decide
      have hbase := loadaddr.toNat_lt
      rw [UInt64.toNat_sub] at ha
      refine if_neg ?_
      rw [UInt64.toNat_sub, UInt64.toNat_add]
      omega
    · rfl
  · rfl

theorem u32At_congr {mem' : Mem} {o : UInt64} (ho : o.toNat + 4 ≤ 2 ^ 20)
    (h : ∀ a, (a - loadaddr).toNat < 2 ^ 20 → mem' a = mem a) :
    u32At mem' (loadaddr + o) = u32At mem (loadaddr + o) := by
  have hbytes : bytesAt mem' (loadaddr + o) 4 = bytesAt mem (loadaddr + o) 4 := by
    refine map_congr_left fun i hi => h _ ?_
    have hbase := loadaddr.toNat_lt
    rw [mem_range] at hi
    rw [UInt64.toNat_sub, UInt64.toNat_add, UInt64.toNat_add, UInt64.toNat_ofNat']
    omega
  rw [u32At, u32At, hbytes]

/-- `bootm` sees the header that was read first. -/
theorem andrImgHdr_readRest :
    andrImgHdr (readRest part mem loadaddr off size).mem loadaddr = andrImgHdr mem loadaddr := by
  have hsame : ∀ o : UInt64, o.toNat + 4 ≤ 2 ^ 20 →
      u32At (readRest part mem loadaddr off size).mem (loadaddr + o) = u32At mem (loadaddr + o) :=
    fun o ho => u32At_congr ho fun a ha => readRest_mem ha
  rw [andrImgHdr, andrImgHdr, hsame 8 (by decide), hsame 16 (by decide), hsame 24 (by decide),
    hsame 36 (by decide)]

/-- A range lies within a longer one from another address on. -/
theorem range_iff {a₀ : UInt64} {n m : ℕ} (hstart : (start - a₀).toNat = o) (h : o + n < 2 ^ 64) :
    (∀ a : UInt64, (a - start).toNat < n → (a - a₀).toNat < m) ↔ n = 0 ∨ o + n ≤ m := by
  have hlt := start.toNat_lt
  rw [UInt64.toNat_sub] at hstart
  constructor
  · intro hall
    by_contra hne
    push Not at hne
    -- the last byte of the range
    have hlast := hall (start + UInt64.ofNat (n - 1)) (by
      rw [UInt64.toNat_sub, UInt64.toNat_add, UInt64.toNat_ofNat']
      omega)
    rw [UInt64.toNat_sub, UInt64.toNat_add, UInt64.toNat_ofNat'] at hlast
    omega
  · intro hn a ha
    rw [UInt64.toNat_sub] at ha ⊢
    omega

/-- A range that begins at a 34-bit distance from the load address was read iff it ends within the
bytes that were read. -/
theorem within_readRest_iff (hrc : (readRest part mem loadaddr off size).rc = 0)
    {len : UInt32} (hstart : (start - loadaddr).toNat = o) (ho : o < 2 ^ 34) :
    Within (readRest part mem loadaddr off size).reads start len.toUInt64 ↔
      len.toNat = 0 ∨ o + len.toNat ≤ max (2 ^ 20) size.toNat := by
  have hlen := len.toNat_lt
  rw [Within]
  simp only [readRest_covers hrc, UInt32.toNat_toUInt64]
  exact range_iff hstart (by omega)

end Ranges

/-! ### The law -/

section Law

variable {part : StorePart} {mem : Mem} {loadaddr off : UInt64} {k : ℕ}

/-- The ranges lie within the bytes that are read iff the layout does not wrap around. -/
theorem ranges_fit_iff {p kernel ramdisk second uk ur : ℕ} (hpage : p ≤ 2 ^ 31)
    (hkernel : kernel < 2 ^ 32)
    (hramdisk : ramdisk < 2 ^ 32) (hsecond : second < 2 ^ 32) (huk : kernel ≤ uk ∧ uk < kernel + p)
    (huk' : uk ≤ 2 ^ 32 ∧ (uk < 2 ^ 32 → uk + p ≤ 2 ^ 32) ∧ (kernel = 0 → uk = 0))
    (hur : ramdisk ≤ ur ∧ ur < ramdisk + p) (hur' : ur ≤ 2 ^ 32 ∧ (ramdisk = 0 → ur = 0)) :
    ((kernel = 0 ∨ p + kernel ≤ max (2 ^ 20) ((p + uk + ur + second) % 2 ^ 32)) ∧
      (second = 0 ∨ p + uk % 2 ^ 32 + ur % 2 ^ 32 + second ≤ max (2 ^ 20)
      ((p + uk + ur + second) % 2 ^ 32)) ∧
      (ramdisk = 0 ∨ p + uk % 2 ^ 32 + ramdisk ≤ max (2 ^ 20) ((p + uk + ur + second) % 2 ^ 32))) ↔
      p + uk + ur + second < 2 ^ 32 := by
  omega

/-- A command that returns 0 for an image that is not encrypted. -/
theorem doImageReadKernel_eq (hplain : ¬ isSecure
    (storeReadOps part mem loadaddr off imgPreloadSz.toNat) loadaddr)
    (hrc : (doImageReadKernel part mem loadaddr off).rc = 0) :
    doImageReadKernel part mem loadaddr off =
      readRest part (storeReadOps part mem loadaddr off imgPreloadSz.toNat) loadaddr
        (off + imgPreloadSz.toUInt64) (actualBootImgSz (loadedHdr part mem loadaddr off)) := by
  have hsecure : amlGetSecureBootKernelSize (storeReadOps part mem loadaddr off imgPreloadSz.toNat)
      loadaddr = some 0 := by
    rw [amlGetSecureBootKernelSize, if_pos hplain]
  rw [doImageReadKernel] at hrc ⊢
  dsimp only at hrc ⊢
  rw [hsecure] at hrc ⊢
  split at hrc
  · exact absurd (show (133 : ℕ) = 0 from hrc) (by decide)
  rename_i hpre
  split at hrc
  · exact absurd (show (140 : ℕ) = 0 from hrc) (by decide)
  · rename_i handroid
    rw [if_neg hpre, if_neg handroid, loadedHdr]
    dsimp only
    rw [if_neg (by decide)]

/-- A number of 32 bits, rounded up to a page. -/
theorem roundUp_bounds {p n : ℕ} (hp : p ∣ 2 ^ 32) (hpos : 0 < p) (hn : n < 2 ^ 32) :
    (n ≤ roundUp n p ∧ roundUp n p < n + p) ∧
      (roundUp n p ≤ 2 ^ 32 ∧ (roundUp n p < 2 ^ 32 → roundUp n p + p ≤ 2 ^ 32) ∧
      (n = 0 → roundUp n p = 0)) := by
  have hlt : roundUp n p < n + p := by
    have hle := roundDown_le (n + p - 1) p
    rw [roundUp]
    omega
  refine ⟨⟨le_roundUp hpos, hlt⟩, roundUp_le hpos hp hn.le, fun hless => ?_, ?_⟩
  · obtain ⟨q, hq⟩ := hp
    obtain ⟨r, hr⟩ : p ∣ roundUp n p := dvd_roundDown _ p
    rw [hq, hr] at hless ⊢
    have hqr : r + 1 ≤ q := Nat.lt_of_mul_lt_mul_left hless
    calc p * r + p = p * (r + 1) := (Nat.mul_succ p r).symm
      _ ≤ p * q := Nat.mul_le_mul_left p hqr
  · rintro rfl
    have hle := roundUp_le hpos (Nat.dvd_zero p) le_rfl
    omega

/-- The three ranges that `bootm` uses. -/
theorem used_iff {reads : List (UInt64 × ℕ)} {h : AndrImgHdr} (hhdr : andrImgHdr mem loadaddr = h) :
    ((∀ malloc images, androidImageGetKernel malloc mem loadaddr = some images →
        Within reads images.osData images.osLen ∧ Within reads images.ftAddr images.ftLen) ∧
      ∀ rd, androidImageGetRamdisk mem loadaddr = some rd → Within reads rd.1 rd.2) ↔
    Within reads (loadaddr + h.pageSize.toUInt64) h.kernelSize.toUInt64 ∧
      Within reads (loadaddr + h.pageSize.toUInt64 + (align h.kernelSize h.pageSize).toUInt64 +
        (align h.ramdiskSize h.pageSize).toUInt64) h.secondSize.toUInt64 ∧
      Within reads (loadaddr + h.pageSize.toUInt64 + (align h.kernelSize h.pageSize).toUInt64)
        h.ramdiskSize.toUInt64 := by
  unfold androidImageGetKernel androidImageGetRamdisk
  rw [hhdr]
  constructor
  · rintro ⟨hused, hrd⟩
    obtain ⟨hos, hft⟩ := hused true _ rfl
    refine ⟨hos, hft, ?_⟩
    by_cases hzero : h.ramdiskSize = 0
    · -- there is no ramdisk
      intro a ha
      rw [hzero] at ha
      exact absurd ha (Nat.not_lt_zero _)
    · exact hrd (_, _) (if_neg hzero)
  · rintro ⟨hos, hft, hrd⟩
    constructor
    · intro malloc images himages
      obtain ⟨-, ⟨⟩⟩ := Option.ite_none_left_eq_some.mp himages
      exact ⟨hos, hft⟩
    · intro rd hsome
      obtain ⟨-, ⟨⟩⟩ := Option.ite_none_left_eq_some.mp hsome
      exact hrd

/-- What is used later was read iff the command fails, or the layout does not wrap around. -/
theorem loadsWhatIsUsed_iff (part : StorePart) (mem : Mem) (loadaddr off : UInt64) (k : ℕ)
    (hplain : ¬ isSecure (storeReadOps part mem loadaddr off imgPreloadSz.toNat) loadaddr)
    (hpage : (loadedHdr part mem loadaddr off).pageSize.toNat = 2 ^ k) :
    LoadsWhatIsUsed part mem loadaddr off ↔
      (doImageReadKernel part mem loadaddr off).rc ≠ 0 ∨
      layoutSize (loadedHdr part mem loadaddr off) < 2 ^ 32 := by
  by_cases hrc : (doImageReadKernel part mem loadaddr off).rc = 0
  swap
  · exact ⟨fun _ => .inl hrc, fun _ h => absurd h hrc⟩
  rw [or_iff_right (not_not.mpr hrc), LoadsWhatIsUsed, imp_iff_right hrc]
  have heq := doImageReadKernel_eq hplain hrc
  rw [heq] at hrc ⊢
  obtain ⟨h, hh⟩ : ∃ h, h = loadedHdr part mem loadaddr off := ⟨_, rfl⟩
  rw [← hh] at hrc hpage ⊢
  rw [used_iff (andrImgHdr_readRest.trans hh.symm)]
  obtain ⟨hdvd, hpos, hle⟩ := dvd_of_toNat hpage
  have hkernel := roundUp_bounds hdvd hpos h.kernelSize.toNat_lt
  have hramdisk := roundUp_bounds hdvd hpos h.ramdiskSize.toNat_lt
  have hbase := loadaddr.toNat_lt
  have hak := toNat_align hpage h.kernelSize
  have har := toNat_align hpage h.ramdiskSize
  rw [within_readRest_iff hrc ?_ ?_, within_readRest_iff hrc ?_ ?_, within_readRest_iff hrc ?_ ?_,
    toNat_actualBootImgSz hpage]
  · exact ranges_fit_iff hle h.kernelSize.toNat_lt h.ramdiskSize.toNat_lt h.secondSize.toNat_lt
      hkernel.1 hkernel.2 hramdisk.1 ⟨hramdisk.2.1, hramdisk.2.2.2⟩
  · simp only [UInt64.toNat_sub, UInt64.toNat_add, UInt32.toNat_toUInt64]
    omega
  · omega
  · simp only [UInt64.toNat_sub, UInt64.toNat_add, UInt32.toNat_toUInt64]
    omega
  · omega
  · rw [UInt64.toNat_sub, UInt64.toNat_add, UInt32.toNat_toUInt64]
    omega
  · omega

end Law

/-- A partition with an image that has only a kernel, in pages of 2048 bytes. -/
def kernelOnly (kernelSize : ℕ) : StorePart where
  bytes := fun i => (textBytes "ANDROID!" ++ leBytes 4 kernelSize ++ List.replicate 24 0 ++
    leBytes 4 2048).getD i 0
  succeeds := fun _ _ => true

theorem loadsWhatIsUsed_iff_kernelOnly : LoadsWhatIsUsed (kernelOnly 0x500000)
    (fun _ => 0) 0x1080000 0 :=
  (loadsWhatIsUsed_iff (kernelOnly 0x500000) (fun _ => 0) 0x1080000 0 11 (by decide +kernel)
    (by decide +kernel)).mpr (.inr (by decide +kernel))

/-- The sizes of this image add up to `2 ^ 32`: only the first megabyte is read. -/
theorem not_loadsWhatIsUsed_kernelOnly : ¬ LoadsWhatIsUsed (kernelOnly 0xfffff800)
    (fun _ => 0) 0x1080000 0 := by
  intro h
  have hrc : (doImageReadKernel (kernelOnly 0xfffff800) (fun _ => 0) 0x1080000 0).rc = 0 := by
    decide +kernel
  have hkernel := ((h hrc).1 true _ rfl).1 0x1180000 (by decide +kernel)
  revert hkernel
  decide +kernel

end UBoot.Boot
