import UBoot.Burning.Simg
import UBoot.Common.Writes

/-!
# The fill buffer

A chunk of type `CHUNK_TYPE_FILL` is written from a buffer of 64 KiB that keeps its contents from
chunk to chunk, and even from image to image. `FillOk` is what makes that sound: the words up to
`_filledBufValidLen` are all the same.
-/

namespace UBoot.Burning

open UBoot.Common List

/-- The address and the data of a write to the media. -/
def Write.toPair (w : Write) : ℕ × List UInt8 := (w.sector * 512, w.data)

/-- The writes put exactly the given bytes of the content on the media. -/
def WritesExactly (ws : List Write) (content : List (Option UInt8)) : Prop :=
  Exact (ws.map Write.toPair) content

variable {ws : List Write} {out : List (Option UInt8)}

theorem WritesExactly.append_write (h : WritesExactly ws out) {w : Write}
    (hw : w.sector * 512 = out.length) : WritesExactly (ws ++ [w]) (out ++ w.data.map some) := by
  rw [WritesExactly, map_append, map_singleton, Write.toPair, hw]
  exact Exact.append_write h w.data

theorem WritesExactly.append_none (h : WritesExactly ws out) (n : ℕ) :
    WritesExactly ws (out ++ replicate n none) := Exact.append_none h n

/-! ## Filling the buffer -/

/-- The valid words of the fill buffer are all the same. -/
def FillOk (s : SimgState) : Prop :=
  ∃ value, value < 2 ^ 32 ∧ Contains s.area fillValBuf (fillBytes value s.filledBufValidLen)

/-- Only words are ever valid: a buffer is good up to `n` bytes or up to the words in `n` bytes. -/
theorem fillBytes_div (value n : ℕ) : fillBytes value (n / 4 * 4) = fillBytes value n := by
  rw [fillBytes, fillBytes, Nat.mul_div_cancel _ (by decide)]

/-- `fillWords` extends the words that are good already, and changes nothing below the buffer. -/
theorem fillWords_spec (value : ℕ) (n i : ℕ) (area : ℕ → UInt8)
    (h : Contains area fillValBuf (fillBytes value (4 * i))) :
    Contains (fillWords value n i area) fillValBuf (fillBytes value (4 * (i + n))) ∧
      ∀ a < fillValBuf, fillWords value n i area a = area a := by
  induction n generalizing i area with
  | zero => exact ⟨h, fun _ _ => rfl⟩
  | succ n ih =>
    have hlen : (fillBytes value (4 * i)).length = 4 * i := length_fillBytes value (Nat.dvd_mul_right 4 i)
    have hword : Contains (store area (fillValBuf + 4 * i) (leBytes 4 value)) fillValBuf
        (fillBytes value (4 * (i + 1))) := by
      rw [Nat.mul_add, fillBytes_add _ _ (Nat.dvd_mul_right 4 i), contains_append, hlen]
      refine ⟨h.congr fun a _ ha => store_of_outside _ _ _ (.inl ?_), contains_store _ _ _⟩
      rwa [hlen] at ha
    obtain ⟨hgood, hbelow⟩ := ih (i + 1) _ hword
    refine ⟨?_, fun a ha => ?_⟩
    · rwa [show i + 1 + n = i + (n + 1) by omega] at hgood
    · rw [fillWords, hbelow a ha, store_of_outside _ _ _ (.inl (by omega))]

variable {area : ℕ → UInt8} {a value n : ℕ}

/-- A shorter stretch of a filled buffer is filled. -/
theorem contains_fillBytes_of_le {m : ℕ}
    (h : Contains area a (fillBytes value n)) (hmn : m ≤ n) : Contains area a (fillBytes value m) := by
  rw [← fillBytes_div] at h ⊢
  have hle : m / 4 * 4 ≤ n / 4 * 4 := Nat.mul_le_mul_right 4 (Nat.div_le_div_right hmn)
  rw [← Nat.add_sub_cancel' hle, fillBytes_add _ _ (Nat.dvd_mul_left 4 _), contains_append] at h
  exact h.1

/-- The first word of a buffer with a valid word is its value. -/
theorem ofLe_load_of_contains (hvalue : value < 2 ^ 32)
    (h : Contains area a (fillBytes value n)) (hn : 4 ≤ n) : ofLe (load area a 4) = value := by
  have hword : Contains area a (leBytes 4 value) := by
    have h4 := contains_fillBytes_of_le h hn
    simpa [fillBytes] using h4
  exact hword.ofLe_load hvalue

/-- What preparing the buffer does: it keeps the buffer good, the wanted stretch holds the value,
and nothing else of the state changes. -/
theorem prepareFillBuf_spec {s : SimgState} {len : ℕ} (hs : FillOk s) (hvalue : value < 2 ^ 32) :
    ∃ area valid, prepareFillBuf s value len = { s with area := area, filledBufValidLen := valid } ∧
      FillOk { s with area := area, filledBufValidLen := valid } ∧
      Contains area fillValBuf (fillBytes value len) ∧ ∀ a < fillValBuf, area a = s.area a := by
  obtain ⟨v, hv, hbuf⟩ := hs
  rw [prepareFillBuf]
  -- what is still valid after the comparison with the first word holds `value`
  generalize hvalid : (if value ≠ ofLe (load s.area fillValBuf 4) ∧ s.filledBufValidLen ≠ 0 then 0
    else s.filledBufValidLen) = valid
  have hgood : Contains s.area fillValBuf (fillBytes value valid) := by
    split at hvalid
    · subst hvalid
      trivial
    next hsame =>
    subst hvalid
    rcases lt_or_ge s.filledBufValidLen 4 with hlt | hge
    · rw [fillBytes, Nat.div_eq_of_lt hlt]
      trivial
    · have heq : value = ofLe (load s.area fillValBuf 4) := by
        by_contra hne
        exact hsame ⟨hne, by omega⟩
      rwa [heq, ofLe_load_of_contains hv hbuf hge]
  split
  · next hlt =>
    have hword : Contains s.area fillValBuf (fillBytes value (4 * (valid / 4))) := by
      rwa [mul_comm, fillBytes_div]
    obtain ⟨hfilled, hbelow⟩ := fillWords_spec value (len / 4 - valid / 4) (valid / 4) s.area hword
    rw [Nat.add_sub_cancel' (Nat.div_le_div_right (le_of_lt hlt)), mul_comm, fillBytes_div] at hfilled
    exact ⟨_, _, rfl, ⟨value, hvalue, hfilled⟩, hfilled, hbelow⟩
  · next hle =>
    exact ⟨s.area, valid, rfl, ⟨value, hvalue, hgood⟩, contains_fillBytes_of_le hgood (by omega),
      fun _ _ => rfl⟩

/-! ## Writing it -/

/-- The writes of a `CHUNK_TYPE_FILL` chunk put its value on the media, all over its blocks. -/
theorem fillWrites_exact {filledLen : ℕ}
    (hbuf : Contains area fillValBuf (fillBytes value filledLen)) (hfilled : 512 ∣ filledLen) :
    ∀ (fuel left flash : ℕ) (ws : List Write) (out : List (Option UInt8)), left < fuel → 512 ∣ left →
      (left ≠ 0 → filledLen ≠ 0) → flash + left / 512 < 2 ^ 32 → flash * 512 = out.length →
      WritesExactly ws out →
      WritesExactly (ws ++ fillWrites area filledLen fuel left flash)
        (out ++ (fillBytes value left).map some) := by
  intro fuel
  induction fuel with
  | zero => intro left _ _ _ h; omega
  | succ fuel ih =>
    intro left flash ws out hfuel hleft hpos hflash hout hws
    set n := min left filledLen with hn
    have hdvd : 512 ∣ n := by
      rcases le_total left filledLen with hle | hle
      · rwa [hn, min_eq_left hle]
      · rwa [hn, Nat.min_eq_right hle]
    have hdvd4 : 4 ∣ n := Nat.dvd_trans (by decide) hdvd
    have hload : load area fillValBuf n = fillBytes value n := by
      have h := (contains_fillBytes_of_le hbuf (Nat.min_le_right left filledLen)).load_eq
      rwa [length_fillBytes value hdvd4] at h
    have hfirst : WritesExactly (ws ++ [⟨flash, load area fillValBuf n⟩])
      (out ++ (fillBytes value n).map some) := by
      have h := hws.append_write (show (Write.mk flash (load area fillValBuf n)).sector *
        512 = _ from hout)
      rwa [hload] at h ⊢
    rw [fillWrites]
    rw [← hn]
    split
    · next hdone =>
      rwa [show left = n by omega]
    next hmore =>
    have hsplit : fillBytes value left = fillBytes value n ++ fillBytes value (left - n) := by
      rw [← fillBytes_add _ _ hdvd4, Nat.add_sub_cancel' (min_le_left left filledLen)]
    have hlen : (flash + n / 512) * 512 = (out ++ (fillBytes value n).map some).length := by
      rw [length_append, length_map, length_fillBytes value hdvd4, Nat.add_mul,
        Nat.div_mul_cancel hdvd, hout]
    have hrest := ih (left - n) (flash + n / 512) _ _ (by omega) (Nat.dvd_sub hleft hdvd)
      (fun _ => hpos (by omega)) (by omega) hlen hfirst
    rw [Nat.mod_eq_of_lt (show flash + n / 512 < 2 ^ 32 by omega)]
    rw [hsplit, map_append, ← append_assoc out]
    rwa [append_assoc, singleton_append] at hrest

end UBoot.Burning
