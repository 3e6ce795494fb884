import UBoot.Env.HashtableMatch
import UBoot.Env.Import

/-!
# Imports that stay inside their copy of the text

The loops of `himport_r` stop at NUL, the separator or `=`, and only the outer loop looks at the
size. `Closed` describes the entries that end inside the text, and `Terminated` the texts on which
no loop and no look-ahead comes to the end of the copy.
-/

namespace UBoot.Env

open UBoot.Common List

/-! ### Entries that end inside the text -/

/-- The text of a value in front of the byte `t` that ends it. -/
inductive RawValue (sep t : UInt8) : List UInt8 → Prop where
  | nil : RawValue sep t []
  | plain {c : UInt8} {l : List UInt8} (hc : c ≠ 0) (hsep : c ≠ sep) (hesc : c ≠ 92)
      (h : RawValue sep t l) : RawValue sep t (c :: l)
  | escaped {d : UInt8} {l : List UInt8} (hsep : sep ≠ 92) (hd : d ≠ 0) (h : RawValue sep t l) :
      RawValue sep t (92 :: d :: l)
  | last (hsep : sep ≠ 92) (ht : t = 0) : RawValue sep t [92]

/-- The text begins with an entry that ends inside it. The import goes on with the bytes behind it,
or is refused because the name is empty. -/
inductive Closed (sep : UInt8) : List UInt8 → Option (List UInt8) → Prop where
  | blank {c : UInt8} {dp : List UInt8} {r : Option (List UInt8)} (hc : isblank c = true)
      (h : Closed sep dp r) : Closed sep (c :: dp) r
  | comment {x rest : List UInt8} {t : UInt8} (hhead : (x ++ t :: rest).head? = some 35)
      (hx : ∀ c ∈ x, inComment sep c = true) (ht : t = 0 ∨ t = sep) :
      Closed sep (x ++ t :: rest) (some rest)
  | name {x rest : List UInt8} (hstart : Starts (x ++ 0 :: rest))
      (hx : ∀ c ∈ x, inName sep c = true) : Closed sep (x ++ 0 :: rest) (some rest)
  | nameSep {x rest : List UInt8} {d : UInt8} (hstart : Starts (x ++ sep :: d :: rest))
      (hx : ∀ c ∈ x, inName sep c = true) (hsep : sep ≠ 0) :
      Closed sep (x ++ sep :: d :: rest) (some (if sep = 61 then rest else d :: rest))
  | nameEq {x rest : List UInt8} {t : UInt8} (hstart : Starts (x ++ 61 :: t :: rest))
      (hx : ∀ c ∈ x, inName sep c = true) (ht : t = 0 ∨ t = sep) :
      Closed sep (x ++ 61 :: t :: rest) (some rest)
  | value {x raw rest : List UInt8} {t : UInt8} (hstart : Starts (x ++ 61 :: (raw ++ t :: rest)))
      (hx : ∀ c ∈ x, inName sep c = true) (hsep : sep ≠ 61) (hne : raw ≠ []) (hraw : RawValue sep t raw)
      (ht : t = 0 ∨ t = sep) :
      Closed sep (x ++ 61 :: (raw ++ t :: rest)) (if x = [] then none else some rest)

/-- The texts that are read without leaving the copy, where `behind` bytes of the copy follow the
text. -/
inductive Terminated (sep : UInt8) (behind : ℕ) : List UInt8 → Prop where
  | refused {dp : List UInt8} (h : Closed sep dp none) : Terminated sep behind dp
  | last {dp rest : List UInt8} (h : Closed sep dp (some rest))
      (hend : rest.length ≤ behind ∨ rest.head? = some 0) : Terminated sep behind dp
  | next {dp rest : List UInt8} (h : Closed sep dp (some rest))
      (hrest : Terminated sep behind rest) : Terminated sep behind dp

/-! ### Parsing an entry -/

variable {dp : List UInt8} {item : Item}

section Parse

variable {sep : UInt8} {t : UInt8} {raw x : List UInt8}

theorem RawValue.head (h : RawValue sep t raw) : ∀ c ∈ raw.head?, c ≠ 0 ∧ c ≠ sep := by
  cases h with
  | nil => exact fun c hc => nomatch hc
  | plain hc hsep _ _ =>
    rintro c ⟨⟩
    exact ⟨hc, hsep⟩
  | escaped hsep | last hsep =>
    rintro c ⟨⟩
    exact ⟨by decide, hsep.symm⟩

theorem scanEscaped_rawValue {l v : List UInt8}
    (h : scanEscaped 92 0 (fun c => c = 0 ∨ c = sep) l = some (v, dp)) :
    ∃ raw t rest, l = raw ++ t :: rest ∧ dp = t :: rest ∧ RawValue sep t raw ∧ (t = 0 ∨ t = sep) := by
  fun_induction scanEscaped 92 0 (fun c => c = 0 ∨ c = sep) l generalizing v dp with
  | case1 => cases h
  | case2 c hstop =>
    cases h
    exact ⟨[], c, [], rfl, rfl, .nil, hstop⟩
  | case3 c hstop => cases h
  | case4 c d rest hstop =>
    cases h
    exact ⟨[], c, d :: rest, rfl, rfl, .nil, hstop⟩
  | case5 c d rest hstop hesc ih =>
    obtain ⟨⟨v', dp'⟩, hscan, heq⟩ := Option.map_eq_some_iff.mp h
    cases heq
    obtain ⟨raw, t, rest', rfl, hdp, hraw, ht⟩ := ih hscan
    obtain ⟨rfl, hd⟩ := hesc
    exact ⟨92 :: d :: raw, t, rest', rfl, hdp, .escaped (fun hs => hstop (.inr hs.symm)) hd hraw, ht⟩
  | case6 c d rest hstop hesc ih =>
    obtain ⟨⟨v', dp'⟩, hscan, heq⟩ := Option.map_eq_some_iff.mp h
    cases heq
    obtain ⟨raw, t, rest', hl, hdp, hraw, ht⟩ := ih hscan
    rw [not_or] at hstop
    by_cases hc : c = 92
    · -- in front of the NUL a backslash stands for itself
      have hd : d = 0 := by
        by_contra hd
        exact hesc ⟨hc, hd⟩
      have hnil : raw = [] := by
        cases raw with
        | nil => rfl
        | cons c' raw =>
          obtain ⟨rfl, -⟩ := cons_eq_cons.mp hl
          exact absurd hd (hraw.head d rfl).1
      subst hnil hc
      obtain ⟨rfl, rfl⟩ := cons_eq_cons.mp hl
      exact ⟨[92], d, rest, rfl, hdp, .last (fun hs => hstop.2 hs.symm) hd, ht⟩
    · exact ⟨c :: raw, t, rest', by rw [hl]; rfl, hdp, .plain hstop.1 hstop.2 hc hraw, ht⟩

theorem RawValue.scan (h : RawValue sep t raw) (ht : t = 0 ∨ t = sep) (rest : List UInt8) :
    ∃ v, scanEscaped 92 0 (fun c => c = 0 ∨ c = sep) (raw ++ t :: rest) = some (v, t :: rest) := by
  have hstop : ∀ l, scanEscaped 92 0 (fun c => c = 0 ∨ c = sep) (t :: l) = some ([], t :: l) := by
    intro l
    cases l <;> exact if_pos ht
  induction h with
  | nil => exact ⟨[], hstop rest⟩
  | @plain c l hc hsep hesc _ ih =>
    obtain ⟨v, hv⟩ := ih
    obtain ⟨d, tail, htail⟩ : ∃ d tail, l ++ t :: rest = d :: tail := exists_cons_of_ne_nil (by simp)
    refine ⟨c :: v, ?_⟩
    rw [cons_append, htail, scanEscaped, if_neg (not_or.mpr ⟨hc, hsep⟩), if_neg fun h => hesc h.1,
      ← htail, hv]
    rfl
  | @escaped d l hsep hd _ ih =>
    obtain ⟨v, hv⟩ := ih
    refine ⟨d :: v, ?_⟩
    rw [cons_append, cons_append, scanEscaped, if_neg (not_or.mpr ⟨by decide, hsep.symm⟩),
      if_pos ⟨rfl, hd⟩, hv]
    rfl
  | last hsep h0 =>
    refine ⟨[92], ?_⟩
    rw [singleton_append, scanEscaped, if_neg (not_or.mpr ⟨by decide, hsep.symm⟩),
      if_neg fun h => h.2 h0, hstop]
    rfl

/-- What the import does behind an item. -/
def Item.next (item : Item) (rest : List UInt8) : Option (List UInt8) :=
  match item with
  | .enter name _ => if name = ∅ then none else some rest
  | _ => some rest

theorem ofBytes_eq_empty_iff (hx : ∀ c ∈ x, inName sep c = true) : CStr.ofBytes x = ∅ ↔ x = [] := by
  constructor
  · intro h
    rcases x with _ | ⟨c, x⟩
    · rfl
    have hc := hx c mem_cons_self
    rw [inName, decide_eq_true_iff] at hc
    have hbytes := congrArg CStr.bytes h
    simp [CStr.ofBytes, hc.2.1] at hbytes
  · rintro rfl
    rfl

theorem closed_of_parseTail {rest : List UInt8} (hstart : Starts (x ++ dp))
    (hx : ∀ c ∈ x, inName sep c = true) (hdp : ∀ c ∈ dp.head?, inName sep c = false)
    (h : parseTail sep x dp = some (item, rest)) : Closed sep (x ++ dp) (item.next rest) := by
  rcases dp with _ | ⟨c, dp⟩
  · cases h
  have hc := hdp c rfl
  rw [inName, decide_eq_false_iff_not] at hc
  rw [parseTail.eq_def] at h
  dsimp only at h
  by_cases h0 : c = 0
  · rw [if_pos h0] at h
    cases h
    subst h0
    exact .name hstart hx
  rw [if_neg h0] at h
  rcases dp with _ | ⟨d, tail⟩
  · cases h
  dsimp only at h
  split at h
  · next hend =>
    cases h
    by_cases h61 : c = 61
    · subst h61
      rcases hend with hd | hsep | hd
      · exact .nameEq hstart hx (.inl hd)
      · subst hsep
        have hclosed := Closed.nameSep hstart hx h0
        rwa [if_pos rfl] at hclosed
      · exact .nameEq hstart hx (.inr hd)
    · obtain rfl : c = sep := by
        by_contra hsep
        exact hc ⟨h61, h0, hsep⟩
      exact .nameSep hstart hx h0
  · next hend =>
    rw [not_or, not_or] at hend
    obtain rfl : c = 61 := by
      by_contra h61
      exact hc ⟨h61, h0, hend.2.1⟩
    rw [parseValue] at h
    split at h
    · next v _ dp' hscan =>
      cases h
      obtain ⟨raw, t, rest', hl, hdp', hraw, ht⟩ := scanEscaped_rawValue hscan
      obtain ⟨rfl, rfl⟩ := cons_eq_cons.mp hdp'
      have hne : raw ≠ [] := by
        rintro rfl
        obtain ⟨rfl, -⟩ := cons_eq_cons.mp hl
        rcases ht with ht | ht
        · exact hend.1 ht
        · exact hend.2.2 ht
      rw [hl] at hstart ⊢
      simp only [Item.next, ofBytes_eq_empty_iff hx]
      exact .value hstart hx (fun hs => hend.2.1 hs.symm) hne hraw ht
    · cases h

variable {r : Option (List UInt8)}

theorem Closed.of_dropWhile (h : Closed sep (dp.dropWhile isblank) r) : Closed sep dp r := by
  induction dp with
  | nil => exact h
  | cons c dp ih =>
    rw [dropWhile_cons] at h
    split at h
    · next hc => exact .blank hc (ih h)
    · exact h

/-- An entry that is parsed ends inside the text. -/
theorem closed_of_parseItem {rest : List UInt8} (h : parseItem sep dp = some (item, rest)) :
    Closed sep dp (item.next rest) := by
  apply Closed.of_dropWhile
  rw [parseItem] at h
  have hblank := head?_dropWhile_not isblank dp
  generalize dp.dropWhile isblank = dp at h hblank ⊢
  split at h
  · next hhead =>
    have hsplit := takeWhile_append_dropWhile (p := inComment sep) (l := dp)
    have hstop := head?_dropWhile_not (inComment sep) dp
    rcases hd : dp.dropWhile (inComment sep) with _ | ⟨t, tail⟩
    · rw [hd] at h
      cases h
    rw [hd] at h hsplit hstop
    cases h
    rw [← hsplit] at hhead ⊢
    refine .comment hhead (fun c hc => mem_takeWhile_imp hc) ?_
    simp only [inComment, decide_eq_false_iff_not] at hstop
    by_contra hno
    rw [not_or] at hno
    exact hstop hno
  · next hhead =>
    have hsplit := takeWhile_append_dropWhile (p := inName sep) (l := dp)
    have hstart : Starts dp := by
      intro c hc
      rw [Option.mem_def.mp hc] at hblank hhead
      exact ⟨by simpa using hblank, fun h35 => hhead (by rw [h35])⟩
    rw [← hsplit] at hstart
    have hclosed := closed_of_parseTail hstart (fun c hc => mem_takeWhile_imp hc) ?_ h
    · rwa [hsplit] at hclosed
    · intro c hc
      have hstop := head?_dropWhile_not (inName sep) dp
      rw [Option.mem_def.mp hc] at hstop
      simpa using hstop

/-- An entry that ends inside the text is parsed. -/
theorem Closed.parseItem (h : Closed sep dp r) :
    ∃ item rest, parseItem sep dp = some (item, rest) ∧ r = item.next rest := by
  induction h with
  | @blank c dp r hc _ ih =>
    obtain ⟨item, rest, hparse, hr⟩ := ih
    refine ⟨item, rest, ?_, hr⟩
    rw [← hparse, UBoot.Env.parseItem, UBoot.Env.parseItem, dropWhile_cons_of_pos hc]
  | @comment x rest t hhead hx ht =>
    refine ⟨.comment, rest, ?_, rfl⟩
    have hskip : (x ++ t :: rest).dropWhile isblank = x ++ t :: rest := by
      cases hl : x ++ t :: rest with
      | nil => rfl
      | cons c l =>
        rw [hl] at hhead
        obtain rfl : c = 35 := Option.some.inj hhead
        rfl
    have hstop : ¬ inComment sep t = true := by
      rw [inComment, decide_eq_true_iff]
      rintro ⟨h0, hs⟩
      exact ht.elim h0 hs
    simp only [UBoot.Env.parseItem, hskip, if_pos hhead]
    rw [dropWhile_append_of_pos hx, dropWhile_cons_of_neg hstop]
  | @name x rest hstart hx =>
    refine ⟨.delete (.ofBytes x), rest, ?_, rfl⟩
    rw [hstart.parseItem_eq hx (inName_zero sep), parseTail.eq_def]
    exact if_pos rfl
  | @nameSep x rest d hstart hx hsep =>
    refine ⟨.delete (.ofBytes x), if sep = 61 then rest else d :: rest, ?_, rfl⟩
    rw [hstart.parseItem_eq hx (by simp [inName]), parseTail.eq_def]
    dsimp only
    rw [if_neg hsep, if_pos (.inr (.inl rfl))]
  | @nameEq x rest t hstart hx ht =>
    refine ⟨.delete (.ofBytes x), rest, ?_, rfl⟩
    rw [hstart.parseItem_eq hx (inName_eq sep), parseTail.eq_def]
    dsimp only
    rw [if_neg (by decide), if_pos (ht.imp_right .inr), if_pos rfl]
  | @value x raw rest t hstart hx hsep hne hraw ht =>
    obtain ⟨v, hscan⟩ := hraw.scan ht rest
    obtain ⟨d, raw', rfl⟩ := exists_cons_of_ne_nil hne
    have hd := hraw.head d rfl
    refine ⟨.enter (.ofBytes x) (.ofBytes v), rest, ?_, ?_⟩
    · rw [hstart.parseItem_eq hx (inName_eq sep), cons_append, parseTail.eq_def]
      dsimp only
      rw [if_neg (by decide), if_neg, parseValue, ← cons_append, hscan]
      rintro (h | h | h)
      · exact hd.1 h
      · exact hsep h.symm
      · exact hd.2 h
    · simp only [Item.next, ofBytes_eq_empty_iff hx]

/-- The bytes behind an entry. -/
theorem Closed.suffix {rest : List UInt8} (h : Closed sep dp (some rest)) :
    ∃ l ≠ [], dp = l ++ rest := by
  generalize hr : some rest = r at h
  induction h with
  | blank _ _ ih =>
    obtain ⟨l, -, rfl⟩ := ih hr
    exact ⟨_ :: l, by simp, rfl⟩
  | @comment x rest' t => exact ⟨x ++ [t], by simp, by cases hr; simp⟩
  | @name x rest' => exact ⟨x ++ [0], by simp, by cases hr; simp⟩
  | @nameSep x rest' d =>
    obtain rfl := Option.some.inj hr
    split
    · exact ⟨x ++ [sep, d], by simp, by simp⟩
    · exact ⟨x ++ [sep], by simp, by simp⟩
  | @nameEq x rest' t => exact ⟨x ++ [61, t], by simp, by cases hr; simp⟩
  | @value x raw rest' t =>
    split at hr
    · cases hr
    · exact ⟨x ++ 61 :: raw ++ [t], by simp, by cases hr; simp⟩

theorem Closed.eq_next {rest : List UInt8} (h : Closed sep dp r)
    (hparse : UBoot.Env.parseItem sep dp = some (item, rest)) : r = item.next rest := by
  obtain ⟨item', rest', hparse', hr⟩ := h.parseItem
  rw [hparse] at hparse'
  obtain ⟨rfl, rfl⟩ := Prod.mk.inj (Option.some.inj hparse')
  exact hr

end Parse

/-! ### The import -/

section Import

variable {κ γ : Type} {hk : Hooks κ γ} {s : State κ γ} {sep : UInt8} {flag behind : ℕ}

theorem createEntry_ne_hang (key data : CStr) (idx : ℕ) (s : State κ γ) :
    (createEntry hk key data flag idx s).2 ≠ .hang := by
  simp only [createEntry]
  split
  · simp
  · split <;> simp

theorem hsearchR_ne_hang (h : ZeroFree s.htab) (key : CStr) (action : Action) :
    (hsearchR hk key action flag s).2 ≠ .hang := by
  simp only [hsearchR]
  split
  · next hloc => exact absurd hloc (locate_ne_hang h key)
  · simp only [overwriteEntry]
    split
    · simp
    · split
      · simp
      · split <;> simp
  · split
    · simp
    · split
      · simp
      · exact createEntry_ne_hang _ _ _ _

theorem hdeleteR_ne_hang (h : ZeroFree s.htab) (key : CStr) :
    (hdeleteR hk key flag s).2 ≠ .hang := by
  have hsearch : (hsearchR hk key .find 0 s).2 ≠ .hang := hsearchR_ne_hang h key .find
  simp only [hdeleteR]
  split
  · split
    · simp
    · split <;> simp
  · next heq =>
    rw [heq] at hsearch
    exact absurd rfl hsearch
  · simp

/-- Whatever calls came before, also ones that lost entries, every call returns, and finds only
slots of the table. -/
theorem Reachable.returns {nel : ℕ} (hb : hk.Benign) (h : Reachable hk nel s) (key : CStr)
    (action : Action) : (hsearchR hk key action flag s).2 ≠ .hang ∧ (hdeleteR hk key flag s).2 ≠ .hang ∧
      ∀ idx, locate s.htab key = .entry idx → 0 < idx ∧ idx ≤ s.htab.size := by
  have hzero := h.zeroFree hb
  exact ⟨hsearchR_ne_hang hzero key action, hdeleteR_ne_hang hzero key, fun _ => locate_mem hzero⟩

/-- A table of 5 slots with `a`, `f` and `k`, which all begin at slot 3. -/
def collided : State Empty Unit :=
  [97, 102, 107].foldl (fun s c => (hsearchR noHooks (.ofBytes [c]) (.enter (.ofBytes [120])) 0
    s).1) ⟨⟨fun _ => default, 5, 0⟩, ()⟩

/-- `k` is found, and deleted, behind the slots of `a` and `f`. -/
theorem returns_collided : firstIndex 5 (.ofBytes [107]) = 3 ∧
    (collided.htab.table 3).entry.key = .ofBytes [97] ∧ locate collided.htab (.ofBytes [107]) =
    .entry 1 ∧ (hdeleteR noHooks (.ofBytes [107]) 0 collided).2 ≠ .hang := by
  have hreach : Reachable noHooks 5 collided :=
    (((Reachable.fresh (show hcreateR 5 = _ from rfl) ()).search _ _ _).search _ _ _).search _ _ _
  exact ⟨by decide, by decide +kernel, by decide +kernel,
    (Reachable.returns noHooks_benign hreach (.ofBytes [107]) .find).2.1⟩

theorem processItem_delete (hb : hk.Benign) (h : ZeroFree s.htab) (name : CStr)
    (vars : List (Option CStr)) : ∃ s' vars', processItem hk flag (.delete name) vars s =
    (.ok s', vars') ∧ ZeroFree s'.htab := by
  simp only [processItem]
  split
  · have hang : (hdeleteR hk name flag s).2 ≠ .hang := hdeleteR_ne_hang h name
    have hzero := hdeleteR_zeroFree hb h name flag
    split
    · next heq =>
      rw [heq] at hang
      exact absurd rfl hang
    · next heq =>
      rw [heq] at hzero
      exact ⟨_, _, rfl, hzero⟩
  · exact ⟨_, _, rfl, h⟩

theorem processItem_enter_cases (hb : hk.Benign) (h : ZeroFree s.htab) {name : CStr}
    (hname : name ≠ ∅) (value : CStr) (vars : List (Option CStr)) :
    ∃ s' vars', processItem hk flag (.enter name value) vars s = (.ok s', vars') ∧ ZeroFree s'.htab := by
  simp only [processItem, if_neg hname]
  split
  · have hang : (hsearchR hk name (.enter value) flag s).2 ≠ .hang :=
        hsearchR_ne_hang h name (.enter value)
    have hzero := hsearchR_zeroFree hb h name (.enter value) flag
    split
    · next heq =>
      rw [heq] at hang
      exact absurd rfl hang
    · next heq =>
      rw [heq] at hzero
      exact ⟨_, _, rfl, hzero⟩
  · exact ⟨_, _, rfl, h⟩

/-- An item is refused, or the import goes on behind it. -/
theorem processItem_cases (hb : hk.Benign) (flag : ℕ) (h : ZeroFree s.htab) (item : Item)
    (vars : List (Option CStr)) (rest : List UInt8) :
    (item.next rest = none ∧ ∃ vars', processItem hk flag item vars s =
      (.failed .einval s, vars')) ∨ item.next rest = some rest ∧
        ∃ s' vars', processItem hk flag item vars s = (.ok s', vars') ∧ ZeroFree s'.htab := by
  cases item with
  | comment => exact .inr ⟨rfl, s, vars, rfl, h⟩
  | delete name => exact .inr ⟨rfl, processItem_delete hb h name vars⟩
  | enter name value =>
    by_cases hname : name = ∅
    · refine .inl ⟨if_pos hname, vars, ?_⟩
      simp only [processItem, if_pos hname]
    · exact .inr ⟨if_neg hname, processItem_enter_cases hb h hname value vars⟩

theorem deleteUnseen_ne_outOfBounds (vars : List (Option CStr)) (s : State κ γ) :
    deleteUnseen hk flag vars s ≠ .outOfBounds := by
  induction vars generalizing s with
  | nil => exact nofun
  | cons v vars ih =>
    rcases v with _ | name
    · exact ih s
    rw [deleteUnseen]
    split
    · exact fun hno => nomatch hno
    · exact ih _

theorem processItem_ne_outOfBounds (item : Item) (vars : List (Option CStr)) (s : State κ γ) :
    (processItem hk flag item vars s).1 ≠ .outOfBounds := by
  cases item with
  | comment => exact nofun
  | delete name =>
    simp only [processItem]
    split
    · split <;> exact nofun
    · exact nofun
  | enter name value =>
    simp only [processItem]
    split
    · exact nofun
    · split
      · split <;> exact nofun
      · exact nofun

/-- Only an entry that is not refused lets the import go on. -/
theorem next_of_processItem {vars vars' : List (Option CStr)} {s' : State κ γ} (rest : List UInt8)
    (h : processItem hk flag item vars s = (.ok s', vars')) : item.next rest = some rest := by
  cases item with
  | comment => rfl
  | delete name => rfl
  | enter name value =>
    refine if_neg fun hname => ?_
    rw [processItem, if_pos hname] at h
    cases h

theorem Terminated.parseItem (h : Terminated sep behind dp) :
    ∃ item rest, UBoot.Env.parseItem sep dp = some (item, rest) := by
  obtain ⟨r, hclosed⟩ : ∃ r, Closed sep dp r := by
    cases h with
    | refused hclosed | last hclosed | next hclosed => exact ⟨_, hclosed⟩
  obtain ⟨item, rest, hparse, -⟩ := hclosed.parseItem
  exact ⟨item, rest, hparse⟩

/-- A terminated text stays so behind an entry that is not its last. -/
theorem Terminated.rest {rest : List UInt8} (h : Terminated sep behind dp)
    (hparse : UBoot.Env.parseItem sep dp = some (item, rest)) (hnext : item.next rest = some rest)
    (hgo : behind < rest.length ∧ rest.head? ≠ some 0) : Terminated sep behind rest := by
  cases h with
  | refused hclosed => cases (hclosed.eq_next hparse).trans hnext
  | last hclosed hend =>
    obtain rfl := Option.some.inj ((hclosed.eq_next hparse).trans hnext)
    rcases hend with hend | hend
    · exact absurd hend hgo.1.not_ge
    · exact absurd hend hgo.2
  | next hclosed hrest =>
    obtain rfl := Option.some.inj ((hclosed.eq_next hparse).trans hnext)
    exact hrest

/-- On a terminated text the parse loop stays inside the copy, whatever the table and the hooks. -/
theorem importLoop_inside (fuel : ℕ) (vars : List (Option CStr)) (s : State κ γ)
    (h : Terminated sep behind dp) : importLoop hk sep flag behind fuel dp vars s ≠ .outOfBounds := by
  induction fuel generalizing dp vars s with
  | zero => exact nofun
  | succ fuel ih =>
    obtain ⟨item, rest, hparse⟩ := h.parseItem
    rw [importLoop, hparse]
    dsimp only
    have hne : (processItem hk flag item vars s).1 ≠ .outOfBounds := processItem_ne_outOfBounds item vars s
    rcases hp : processItem hk flag item vars s with ⟨res, vars'⟩
    rw [hp] at hne
    cases res with
    | ok s' =>
      dsimp only
      split
      · next hgo => exact ih vars' s' (h.rest hparse (next_of_processItem rest hp) hgo)
      · exact deleteUnseen_ne_outOfBounds vars' s'
    | failed | hang => exact nofun
    | outOfBounds => exact absurd rfl hne

/-- On any other text it leaves the copy. -/
theorem importLoop_outside (hb : hk.Benign) (fuel : ℕ) (hne : dp ≠ [])
    (hfuel : dp.length ≤ fuel) (vars : List (Option CStr)) (hzero : ZeroFree s.htab)
    (h : ¬ Terminated sep behind dp) : importLoop hk sep flag behind fuel dp vars s = .outOfBounds := by
  induction fuel generalizing dp vars s with
  | zero => exact absurd (length_eq_zero_iff.mp (Nat.le_zero.mp hfuel)) hne
  | succ fuel ih =>
    rw [importLoop]
    rcases hparse : parseItem sep dp with _ | r
    · rfl
    obtain ⟨item, rest⟩ := r
    have hclosed := closed_of_parseItem hparse
    dsimp only
    rcases processItem_cases hb flag hzero item vars rest with ⟨hnext, -⟩ | ⟨hnext, s', vars', heq, hzero'⟩
    · rw [hnext] at hclosed
      exact absurd (.refused hclosed) h
    rw [hnext] at hclosed
    rw [heq]
    dsimp only
    have hgo : behind < rest.length ∧ rest.head? ≠ some 0 := by
      by_contra hstop
      refine h (.last hclosed ?_)
      by_contra hend
      rw [not_or] at hend
      exact hstop ⟨by omega, hend.2⟩
    rw [if_pos hgo]
    obtain ⟨l, hl, rfl⟩ := hclosed.suffix
    have hpos := length_pos_of_ne_nil hl
    rw [length_append] at hfuel
    exact ih (ne_nil_of_length_pos (by omega)) (by omega) vars' hzero' fun hrest => h (.next hclosed hrest)

end Import

/-! ### Texts that end in a NUL -/

section Nul

variable {sep : UInt8}

theorem scanEscaped_of_getLast (sep : UInt8) {l : List UInt8} (h : l.getLast? = some 0) :
    ∃ v t rest, scanEscaped 92 0 (fun c => c = 0 ∨ c = sep) l = some (v, t :: rest) := by
  fun_induction scanEscaped 92 0 (fun c => c = 0 ∨ c = sep) l with
  | case1 => cases h
  | case2 c hstop => exact ⟨[], c, [], rfl⟩
  | case3 c hstop =>
    rw [getLast?_singleton, Option.some.injEq] at h
    exact absurd (.inl h) hstop
  | case4 c d rest hstop => exact ⟨[], c, d :: rest, rfl⟩
  | case5 c d rest hstop hesc ih =>
    have hrest : rest.getLast? = some 0 := by
      cases rest with
      | nil => exact absurd (Option.some.inj h) hesc.2
      | cons c' rest => exact h
    obtain ⟨v, t, rest', heq⟩ := ih hrest
    exact ⟨d :: v, t, rest', by rw [heq]; rfl⟩
  | case6 c d rest hstop hesc ih =>
    obtain ⟨v, t, rest', heq⟩ := ih h
    exact ⟨c :: v, t, rest', by rw [heq]; rfl⟩

theorem getLast_dropWhile {p : UInt8 → Bool} (hp : p 0 = false) {l : List UInt8}
    (h : l.getLast? = some 0) : ∃ c rest, l.dropWhile p = c :: rest ∧ (c :: rest).getLast? = some 0 := by
  induction l with
  | nil => cases h
  | cons c l ih =>
    rw [dropWhile_cons]
    split
    · next hc =>
      cases l with
      | nil =>
        obtain rfl : c = 0 := Option.some.inj h
        rw [hp] at hc
        cases hc
      | cons d l => exact ih h
    · exact ⟨c, l, rfl, h⟩

theorem parseTail_of_getLast (name : List UInt8) {c : UInt8} (h : (c :: dp).getLast? = some 0) :
    ∃ item rest, parseTail sep name (c :: dp) = some (item, rest) := by
  rw [parseTail.eq_def]
  dsimp only
  split
  · exact ⟨_, _, rfl⟩
  next hc =>
  rcases dp with _ | ⟨d, rest⟩
  · exact absurd (Option.some.inj h) hc
  dsimp only
  split
  · exact ⟨_, _, rfl⟩
  · have hrest : (d :: rest).getLast? = some 0 := h
    obtain ⟨v, t, rest', hscan⟩ := scanEscaped_of_getLast sep hrest
    exact ⟨_, _, by rw [parseValue, hscan]⟩

theorem parseItem_of_getLast (sep : UInt8) (h : dp.getLast? = some 0) :
    ∃ item rest, parseItem sep dp = some (item, rest) := by
  obtain ⟨c, l, hblank, hl⟩ := getLast_dropWhile (p := isblank) (by decide) h
  simp only [parseItem, hblank]
  split
  · obtain ⟨c', l', hdrop, -⟩ := getLast_dropWhile (p := inComment sep) (by simp [inComment]) hl
    rw [hdrop]
    exact ⟨_, _, rfl⟩
  · obtain ⟨c', l', hdrop, hl'⟩ := getLast_dropWhile (p := inName sep) (by simp [inName]) hl
    rw [hdrop]
    exact parseTail_of_getLast _ hl'

/-- A copy whose last byte is a NUL is terminated. -/
theorem terminated_of_getLast (behind : ℕ) (h : dp.getLast? = some 0) :
    Terminated sep behind dp := by
  induction hn : dp.length using Nat.strong_induction_on generalizing dp with
  | _ n ih =>
    obtain ⟨item, rest, hparse⟩ := parseItem_of_getLast sep h
    have hclosed := closed_of_parseItem hparse
    rcases hnext : item.next rest with _ | rest'
    · exact .refused (hnext ▸ hclosed)
    rw [hnext] at hclosed
    obtain ⟨l, hl, rfl⟩ := hclosed.suffix
    rcases rest' with _ | ⟨c, rest'⟩
    · exact .last hclosed (.inl (Nat.zero_le _))
    have hpos := length_pos_of_ne_nil hl
    rw [length_append] at hn
    refine .next hclosed (ih _ (by omega) ?_ rfl)
    rwa [getLast?_append_cons] at h

end Nul

/-! ### Creating the table -/

theorem hcreateLoop_small : ∀ nel < 513, (hcreateLoop (nel + 1) (nel ||| 1)).isSome := by
  decide +kernel

/-- `nent` is at most 512, or a negative `int` turned into a `size_t`. -/
theorem importEntries_cases (n : ℕ) :
    importEntries n < 513 ∨ 2 ^ 64 - 2 ^ 31 ≤ importEntries n ∧ importEntries n < 2 ^ 64 := by
  unfold importEntries
  have hle := Int.le_bmod (x := ((64 + n / 8 : ℕ) : ℤ)) (Nat.two_pow_pos 32)
  generalize ((64 + n / 8 : ℕ) : ℤ).bmod (2 ^ 32) = nent at *
  dsimp only
  split <;> omega

theorem hcreateR_importEntries (κ : Type) (n : ℕ) : ∃ htab :
    Htab κ, hcreateR (importEntries n) = some htab := by
  have hsome : ∃ size, hcreateLoop (importEntries n + 1) (importEntries n ||| 1) = some size := by
    rcases importEntries_cases n with hsmall | ⟨hlow, hhigh⟩
    · exact Option.isSome_iff_exists.mp (hcreateLoop_small _ hsmall)
    -- close to the end of `size_t` the search wraps around and finds 1 at the latest
    have hor := or_one_eq (importEntries n)
    have hone : isprime (((importEntries n ||| 1) + 2 *
      ((2 ^ 64 - (importEntries n ||| 1)) / 2 + 1)) % 2 ^ 32) = true := by
      rw [show _ % 2 ^ 32 = 1 by omega]
      decide
    obtain ⟨i, -, hloop⟩ := exists_hcreateLoop (importEntries n + 1) (by omega) hone (by omega)
    exact ⟨_, hloop⟩
  obtain ⟨size, hsize⟩ := hsome
  exact ⟨_, by rw [hcreateR, hsize, Option.map_some]⟩

/-! ### The whole import -/

section Whole

/-- The private copy of the text when the parse begins. -/
def importCopy (crlfIsLf : Bool) (env : List UInt8) : List UInt8 :=
  if crlfIsLf then stripCr env ++ env.drop (stripCr env).length else env

/-- The number of bytes of the copy behind the end of the text. -/
def importBehind (crlfIsLf : Bool) (env : List UInt8) : ℕ := if crlfIsLf then ignoredCrs env else 0

variable {env : List UInt8} {sep : UInt8} {flag : ℕ} {crlfIsLf : Bool} {vars : List CStr}

theorem length_stripCr_le (env : List UInt8) : (stripCr env).length ≤ env.length := by
  fun_induction stripCr env with
  | case1 => exact le_rfl
  | case2 => exact Nat.zero_le _
  | case3 c => exact le_rfl
  | case4 d rest => exact Nat.zero_le _
  | case5 c d rest _ _ ih => exact ih.trans (Nat.le_succ _)
  | case6 c d rest _ _ ih => exact Nat.succ_le_succ ih

theorem length_importCopy : (importCopy crlfIsLf env).length = env.length := by
  have hle := length_stripCr_le env
  rw [importCopy]
  split
  · rw [length_append, length_drop]
    omega
  · rfl

/-- The table an import works on. -/
def startTable {κ : Type} (old : Option (Htab κ)) (flag : ℕ) (env : List UInt8) : Option (Htab κ) :=
  (if flag &&& hNoclear = 0 then none else old) <|> hcreateR (importEntries env.length)

variable {κ γ : Type} {old : Option (Htab κ)}

theorem startTable_cases (old : Option (Htab κ)) (flag : ℕ) (env : List UInt8) :
    ∃ htab, startTable old flag env = some htab ∧
    (htab ∈ old ∨ hcreateR (importEntries env.length) = some htab) := by
  obtain ⟨fresh, hfresh⟩ := hcreateR_importEntries κ env.length
  rw [startTable, hfresh]
  split
  · exact ⟨fresh, rfl, .inr rfl⟩
  · cases old with
    | none => exact ⟨fresh, rfl, .inr rfl⟩
    | some htab => exact ⟨htab, rfl, .inl rfl⟩

/-- On its table the import of a text is the parse loop. -/
theorem himportR_of_startTable (hk : Hooks κ γ) (globals : γ) (henv : env ≠ [])
    {htab : Htab κ} (h : startTable old flag env = some htab) :
    himportR hk old globals env sep flag crlfIsLf vars =
      importLoop hk sep flag (importBehind crlfIsLf env) env.length (importCopy crlfIsLf env)
        (vars.map some) ⟨htab, globals⟩ := by
  have hlen : env.length ≠ 0 := fun h => henv (length_eq_zero_iff.mp h)
  rw [startTable] at h
  simp only [himportR, h, if_neg hlen]
  cases crlfIsLf <;> rfl

/-- An unterminated text is read past the end of the copy, into every table that can be reached. -/
theorem himportR_outside {hk : Hooks κ γ} (hb : hk.Benign)
    (hold : ∀ htab ∈ old, ZeroFree htab) (globals : γ) (henv : env ≠ [])
    (h : ¬ Terminated sep (importBehind crlfIsLf env) (importCopy crlfIsLf env)) :
    himportR hk old globals env sep flag crlfIsLf vars = .outOfBounds := by
  obtain ⟨htab, hstart, hmem⟩ := startTable_cases old flag env
  rw [himportR_of_startTable hk globals henv hstart]
  have hne : importCopy crlfIsLf env ≠ [] := by
    rw [← length_pos_iff, length_importCopy, length_pos_iff]
    exact henv
  refine importLoop_outside hb _ hne length_importCopy.le _ ?_ h
  rcases hmem with hmem | hfresh
  · exact hold htab hmem
  · obtain ⟨size, rfl, hsize⟩ := hcreateR_cases hfresh
    exact ⟨hsize, rfl, fun _ => .inr ⟨rfl, mem_cons_self⟩⟩

/-- `himport_r` stays inside its copy of the text, whatever the table, if and only if the text is
terminated. -/
theorem himportR_inside_iff (henv : env ≠ []) :
    (∀ (κ γ : Type) (hk : Hooks κ γ) (old : Option (Htab κ)) (globals : γ),
      himportR hk old globals env sep flag crlfIsLf vars ≠ .outOfBounds) ↔
    Terminated sep (importBehind crlfIsLf env) (importCopy crlfIsLf env) := by
  constructor
  · intro hall
    by_contra hno
    have hout : himportR noHooks none () env sep flag crlfIsLf vars = .outOfBounds :=
      himportR_outside noHooks_benign (fun _ h => by cases h) () henv hno
    exact hall Empty Unit noHooks none () hout
  · intro hterm κ γ hk old globals
    obtain ⟨htab, hstart, -⟩ := startTable_cases old flag env
    rw [himportR_of_startTable hk globals henv hstart]
    exact importLoop_inside _ _ _ hterm

/-- `a=b` with two NULs is read inside the copy. -/
theorem himportR_inside_small : himportR noHooks none () [97, 61, 98, 0, 0] 0 0 false
    [] ≠ .outOfBounds :=
  (himportR_inside_iff (cons_ne_nil _ _)).mpr (terminated_of_getLast _ rfl) Empty Unit noHooks none ()

/-- The name `a` without anything behind it is read past the end. -/
theorem himportR_outside_name : himportR noHooks none () [97] 0 0 false [] = .outOfBounds := by
  refine himportR_outside noHooks_benign (fun _ h => by cases h) () (cons_ne_nil _ _) fun h => ?_
  obtain ⟨item, rest, hparse⟩ := h.parseItem
  exact nomatch (show parseItem 0 (importCopy false [97]) = none by decide).symm.trans hparse

end Whole

end UBoot.Env
