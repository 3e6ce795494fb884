import UBoot.Env.Attr

/-!
# Looking up a name agrees with walking the list

`env_attr_lookup` stops at the last occurrence of the name that stands alone between separators. On
a list of the documented form these occurrences are the names of the entries, so what it finds is
what `env_attr_walk` passes last for the name.
-/

namespace UBoot.Env

open UBoot.Common List

variable {s pat : List UInt8}

/-! ## Searching for a substring -/

/-- `pat` occurs in `s` at index `p`. -/
def OccursAt (s pat : List UInt8) (p : ℕ) : Prop := pat <+: s.drop p

variable {p k : ℕ}

theorem OccursAt.le_length (hpat : pat ≠ []) (h : OccursAt s pat p) :
    p + pat.length ≤ s.length := by
  have hlen := h.length_le
  have hpos := length_pos_of_ne_nil hpat
  rw [length_drop] at hlen
  omega

theorem occursAt_drop : OccursAt (s.drop k) pat p ↔ OccursAt s pat (k + p) := by
  rw [OccursAt, OccursAt, drop_drop]

theorem strstr_spec (hpat : pat ≠ []) (s : List UInt8) : match strstr s pat with
    | none => ∀ p, ¬ OccursAt s pat p
    | some i => OccursAt s pat i ∧ ∀ p < i, ¬ OccursAt s pat p := by
  induction s with
  | nil =>
    rw [strstr, if_neg hpat]
    intro p hocc
    have hle := hocc.le_length hpat
    have hpos := length_pos_of_ne_nil hpat
    rw [length_nil] at hle
    omega
  | cons c s ih =>
    by_cases hpre : pat <+: c :: s
    · rw [strstr, if_pos hpre]
      exact ⟨hpre, fun p hp => absurd hp (by omega)⟩
    rw [strstr, if_neg hpre]
    cases hs : strstr s pat with
    | none =>
      rw [hs] at ih
      rintro (_ | p)
      · exact hpre
      · exact ih p
    | some i =>
      rw [hs] at ih
      refine ⟨ih.1, ?_⟩
      rintro (_ | p) hp
      · exact hpre
      · exact ih.2 p (Nat.lt_of_succ_lt_succ hp)

/-- The match at `p` ends at `start` or before. -/
def EndsBy (pat : List UInt8) (start : Option ℕ) (p : ℕ) : Prop := ∀ b ∈ start, p + pat.length ≤ b

/-- `r` is the last occurrence that ends by `start`, among those in front of `searched`. -/
structure LastBelow (s pat : List UInt8) (start : Option ℕ) (searched : ℕ) (r : Option ℕ) :
    Prop where
  last : ∀ p < searched, OccursAt s pat p → EndsBy pat start p → ∃ q ∈ r, p ≤ q
  occurs : ∀ q ∈ r, OccursAt s pat q ∧ EndsBy pat start q

/-- The loop of `reverse_strstr` finds the last occurrence. -/
theorem reverseStrstrLoop_spec (hpat : pat ≠ []) {start : Option ℕ} {fuel searched : ℕ}
    {result : Option ℕ} (hfuel : s.length < searched + fuel)
    (h : LastBelow s pat start searched result) :
    LastBelow s pat start (s.length + 1) (reverseStrstrLoop s pat start fuel searched result) := by
  induction fuel generalizing searched result with
  | zero =>
    refine ⟨fun p _ hocc hend => h.last p ?_ hocc hend, h.occurs⟩
    omega
  | succ fuel ih =>
    have hspec := strstr_spec hpat (s.drop searched)
    simp only [reverseStrstrLoop]
    cases hs : strstr (s.drop searched) pat with
    | none =>
      rw [hs] at hspec
      refine ⟨fun p _ hocc hend => ?_, h.occurs⟩
      by_cases hp : p < searched
      · exact h.last p hp hocc hend
      · obtain ⟨d, rfl⟩ := Nat.exists_eq_add_of_le (not_lt.mp hp)
        exact absurd (occursAt_drop.mpr hocc) (hspec d)
    | some i =>
      rw [hs] at hspec
      obtain ⟨hocc, hfirst⟩ := hspec
      rw [occursAt_drop] at hocc
      -- nothing between `searched` and the match
      have hgap : ∀ p, searched ≤ p → OccursAt s pat p → searched + i ≤ p := by
        intro p hle hp
        obtain ⟨d, rfl⟩ := Nat.exists_eq_add_of_le hle
        by_contra hlt
        exact hfirst d (by omega) (occursAt_drop.mpr hp)
      simp only
      split
      · next hany =>
        refine ⟨fun p _ hp hend => ?_, h.occurs⟩
        by_cases hlt : p < searched
        · exact h.last p hlt hp hend
        cases start with
        | none => cases hany
        | some b =>
          have hb : p + pat.length ≤ b := hend b rfl
          have hbig : b < searched + i + pat.length := by simpa using hany
          have := hgap p (by omega) hp
          omega
      · next hany =>
        have hend : EndsBy pat start (searched + i) := by
          intro b hb
          rw [Option.mem_def.mp hb] at hany
          simpa using hany
        refine ih (by omega) ⟨fun p hp hpo hpe => ⟨searched + i, rfl, ?_⟩, ?_⟩
        · omega
        · rintro q hq
          obtain rfl := Option.some.inj hq
          exact ⟨hocc, hend⟩

/-- `reverse_strstr` finds the last occurrence that ends by `start`. -/
theorem reverseStrstr_spec (hpat : pat ≠ []) (start : Option ℕ) :
    LastBelow s pat start (s.length + 1) (reverseStrstr s pat start) := by
  rw [reverseStrstr, if_neg hpat]
  refine reverseStrstrLoop_spec hpat (by omega) ⟨fun p hp => absurd hp (by omega), ?_⟩
  intro q hq
  cases hq

/-! ## The search ends -/

section Ends

variable (front : UInt8) (l name : List UInt8)

/-- The search ends, and the match that follows a rejected one lies in front of it. -/
def LookupEnds : Prop :=
  (∃ fuel, attrLookupLoop front l name fuel (reverseStrstr l name none) ≠ .hang) ∧
    ∀ e e', exactMatch front l name e = false → e' ∈ reverseStrstr l name (some e) → e' < e

variable {front l name} {entry : Option ℕ} {e e' fuel : ℕ}

theorem reverseStrstr_lt (hname : name ≠ []) (h : e' ∈ reverseStrstr l name (some e)) : e' < e := by
  have hend := ((reverseStrstr_spec hname (some e)).occurs e' h).2 e rfl
  have hpos := length_pos_of_ne_nil hname
  omega

theorem attrLookupLoop_ne_hang (hname : name ≠ []) (hfuel : ∀ e ∈ entry, e < fuel) :
    attrLookupLoop front l name fuel entry ≠ .hang := by
  induction fuel generalizing entry with
  | zero =>
    cases entry with
    | none => nofun
    | some e => exact absurd (hfuel e rfl) e.not_lt_zero
  | succ fuel ih =>
    rcases entry with _ | e
    · nofun
    rw [attrLookupLoop]
    split
    · nofun
    · exact ih fun e' he' => (reverseStrstr_lt hname he').trans_le (Nat.le_of_lt_succ (hfuel e rfl))

/-- With an empty name, `reverse_strstr` gives the beginning of the list every time. -/
theorem attrLookupLoop_empty (hno : exactMatch front l [] 0 = false) (fuel : ℕ) :
    attrLookupLoop front l [] fuel (some 0) = .hang := by
  induction fuel with
  | zero => rfl
  | succ fuel ih =>
    rw [attrLookupLoop, hno]
    exact ih

/-- `env_attr_lookup` ends, with matches further and further to the left, exactly if the name is not
empty or the list begins with a separator, spaces skipped. -/
theorem lookupEnds_iff (front : UInt8) (l name : List UInt8) :
    LookupEnds front l name ↔ name ≠ [] ∨ nextch l = 58 ∨ nextch l = 44 ∨ nextch l = 0 := by
  rcases eq_or_ne name [] with rfl | hname
  · have hexact : exactMatch front l [] 0 = true ↔ nextch l = 58 ∨ nextch l = 44 ∨ nextch l = 0 := by
      simp [exactMatch]
    rw [← hexact]
    refine ⟨fun h => .inr ?_, fun h => ⟨⟨1, ?_⟩, fun e e' hno he' => ?_⟩⟩
    · by_contra hno
      obtain ⟨fuel, hfuel⟩ := h.1
      exact hfuel (attrLookupLoop_empty (Bool.eq_false_iff.mpr hno) fuel)
    · rw [reverseStrstr, if_pos rfl, attrLookupLoop, if_pos (h.resolve_left fun h => h rfl)]
      nofun
    · obtain rfl : 0 = e' := Option.some.inj he'
      refine Nat.pos_of_ne_zero ?_
      rintro rfl
      rw [h.resolve_left fun h => h rfl] at hno
      cases hno
  · refine iff_of_true ⟨⟨l.length + 1, attrLookupLoop_ne_hang hname fun e he => ?_⟩,
      fun e e' _ he' => ?_⟩ (.inl hname)
    · have hle := ((reverseStrstr_spec hname none).occurs e he).1.le_length hname
      omega
    · exact reverseStrstr_lt hname he'

/-- With an empty name, the list `a` is searched forever. -/
theorem not_lookupEnds_empty : ¬ LookupEnds 0 [97] [] :=
  fun ⟨⟨fuel, hfuel⟩, _⟩ => hfuel (attrLookupLoop_empty (by decide) fuel)

end Ends

/-! ## The search for an exact match -/

section Lookup

variable {l name : List UInt8} {front : UInt8}

/-- Names that can stand in a list: not empty, without space, comma or colon. -/
structure AttrName (name : List UInt8) : Prop where
  ne_nil : name ≠ []
  no_nul : 0 ∉ name
  no_space : 32 ∉ name
  no_comma : 44 ∉ name
  no_colon : 58 ∉ name

/-- An occurrence of the name that stands alone between separators. -/
def StandsAt (front : UInt8) (l name : List UInt8) (p : ℕ) : Prop :=
  OccursAt l name p ∧ exactMatch front l name p = true

/-- An occurrence further right cannot overlap an exact match: it would have a separator in it. -/
theorem StandsAt.add_length_le (hn : AttrName name) {e : ℕ} (hp : StandsAt front l name p)
    (he : OccursAt l name e) (hlt : p < e) : p + name.length ≤ e := by
  by_contra hover
  -- the character behind the match is one of the name
  have hc : l[p + name.length]? = name[p + name.length - e]? := by
    obtain ⟨t, ht⟩ := he
    have h1 : (l.drop e)[p + name.length - e]? = name[p + name.length - e]? := by
      rw [← ht, List.getElem?_append_left (by omega)]
    rw [← h1, List.getElem?_drop]
    congr 1
    omega
  rw [List.getElem?_eq_getElem (show p + name.length - e < name.length by omega)] at hc
  set c := name[p + name.length - e]
  have hmem : c ∈ name := getElem_mem _
  have h32 : c ≠ 32 := fun h => hn.no_space (h ▸ hmem)
  have h44 : c ≠ 44 := fun h => hn.no_comma (h ▸ hmem)
  have h58 : c ≠ 58 := fun h => hn.no_colon (h ▸ hmem)
  have h0 : c ≠ 0 := fun h => hn.no_nul (h ▸ hmem)
  obtain ⟨hidx, hget⟩ := List.getElem?_eq_some_iff.mp hc
  have hdrop : l.drop (p + name.length) = c :: l.drop (p + name.length + 1) := by
    rw [drop_eq_getElem_cons hidx, hget]
  have hnext : nextch (l.drop (p + name.length)) = c := by
    rw [nextch, hdrop, dropWhile_cons_of_neg (by simpa using h32)]
    rfl
  have hexact := hp.2
  simp [exactMatch, hnext, h44, h58, h0] at hexact

/-- The lookup gives the attributes behind the last exact match. -/
def FindsLast (front : UInt8) (l name : List UInt8) : AttrLookup → Prop
  | .found a => ∃ p, StandsAt front l name p ∧ (∀ q, StandsAt front l name q → q ≤ p) ∧
      attributesAfter (l.drop (p + name.length)) = a
  | .notFound => ∀ p, ¬ StandsAt front l name p
  | .hang => False

/-- The search loop ends at the last exact match. -/
theorem attrLookupLoop_spec (hn : AttrName name) {fuel : ℕ} {entry : Option ℕ}
    (hocc : ∀ e ∈ entry, OccursAt l name e) (hbelow : ∀ p, StandsAt front l name p → ∃ q ∈ entry,
    p ≤ q) (hfuel : ∀ e ∈ entry, e < fuel) :
    FindsLast front l name (attrLookupLoop front l name fuel entry) := by
  induction fuel generalizing entry with
  | zero =>
    cases entry with
    | none =>
      intro p hp
      obtain ⟨q, hq, -⟩ := hbelow p hp
      cases hq
    | some e => exact absurd (hfuel e rfl) (by omega)
  | succ fuel ih =>
    rcases entry with _ | e
    · intro p hp
      obtain ⟨q, hq, -⟩ := hbelow p hp
      cases hq
    have he := hocc e rfl
    rw [attrLookupLoop]
    by_cases hexact : exactMatch front l name e = true
    · rw [if_pos hexact]
      refine ⟨e, ⟨he, hexact⟩, fun q hq => ?_, rfl⟩
      obtain ⟨e', he', hle⟩ := hbelow q hq
      exact (Option.some.inj he') ▸ hle
    · rw [if_neg hexact]
      have hlast := reverseStrstr_spec (s := l) hn.ne_nil (some e)
      refine ih (fun e' he' => (hlast.occurs e' he').1) (fun p hp => ?_) fun e' he' => ?_
      · -- every exact match lies in front of the rejected one
        obtain ⟨e', he', hle⟩ := hbelow p hp
        obtain rfl := Option.some.inj he'
        have hlen := hp.1.le_length hn.ne_nil
        refine hlast.last p (by omega) hp.1 fun b hb => ?_
        obtain rfl := Option.some.inj hb
        refine hp.add_length_le hn he (lt_of_le_of_ne hle ?_)
        rintro rfl
        exact hexact hp.2
      · exact (reverseStrstr_lt hn.ne_nil he').trans_le (Nat.le_of_lt_succ (hfuel e rfl))

/-- `env_attr_lookup` returns the attributes behind the last exact match. -/
theorem envAttrLookup_spec (hn : AttrName name) (front : UInt8) (l : List UInt8) :
    FindsLast front l name (envAttrLookup front l name) := by
  have hlast := reverseStrstr_spec (s := l) hn.ne_nil none
  refine attrLookupLoop_spec hn (fun e he => (hlast.occurs e he).1) (fun p hp => ?_) fun e he => ?_
  · have hlen := hp.1.le_length hn.ne_nil
    exact hlast.last p (by omega) hp.1 fun b hb => absurd hb (by simp)
  · have := (hlast.occurs e he).1.le_length hn.ne_nil
    omega

/-! ## Names of entries -/

/-- In front stands a comma or nothing, spaces skipped. -/
def Before (pre : List UInt8) : Prop := ∀ c ∈ (pre.reverse.dropWhile (· = 32)).head?, c = 44

/-- Behind stands a colon, a comma or nothing, spaces skipped. -/
def After (post : List UInt8) : Prop := ∀ c ∈ (post.dropWhile (· = 32)).head?, c = 58 ∨ c = 44

/-- The name occurs at `p` as the name of an entry. -/
@[mk_iff]
structure NamedAt (l name : List UInt8) (p : ℕ) : Prop where
  occurs : OccursAt l name p
  before : Before (l.take p)
  after : After (l.drop (p + name.length))

theorem prevch_eq_comma_iff (front : UInt8) {pre : List UInt8} (hfirst : pre.head? ≠ some 32) :
    (pre = [] ∨ prevch front pre = 44) ↔ Before pre := by
  rcases pre with _ | ⟨c, pre⟩
  · simp [Before]
  have hc : c ≠ 32 := by simpa using hfirst
  -- the first character is not skipped
  have hne : (c :: pre).reverse.dropWhile (· = 32) ≠ [] := by
    rw [ne_eq, dropWhile_eq_nil_iff]
    intro h
    exact hc (by simpa using h c (by simp))
  obtain ⟨e, rest, hrest⟩ := exists_cons_of_ne_nil hne
  simp only [Before, prevch, hrest]
  simp

theorem nextch_iff {post : List UInt8} (hnul : 0 ∉ post) :
    (nextch post = 58 ∨ nextch post = 44 ∨ nextch post = 0) ↔ After post := by
  cases hrest : post.dropWhile (· = 32) with
  | nil => simp [After, nextch, hrest]
  | cons c rest =>
    have hmem : c ∈ post := (dropWhile_sublist _).mem (hrest ▸ mem_cons_self)
    have h0 : c ≠ 0 := fun h => hnul (h ▸ hmem)
    simp [After, nextch, hrest, h0]

/-- Exact matches are the names of entries where `prevch` tells what stands in front. -/
theorem standsAt_iff_of_before (hnul : 0 ∉ l)
    (hbefore : OccursAt l name p → ((p = 0 ∨ prevch front (l.take p) = 44) ↔ Before (l.take p))) :
    StandsAt front l name p ↔ NamedAt l name p := by
  rw [namedAt_iff]
  refine and_congr_right fun hocc => ?_
  rw [← hbefore hocc, ← nextch_iff fun h => hnul ((drop_sublist _ _).mem h)]
  simp only [exactMatch, decide_eq_true_eq]

/-- Unless the list starts with a space, exact matches are the names of entries; the memory in front
of the list plays no part. -/
theorem standsAt_iff (hn : AttrName name) (hnul : 0 ∉ l) (hfirst : l.head? ≠ some 32) :
    StandsAt front l name p ↔ NamedAt l name p := by
  refine standsAt_iff_of_before hnul fun hocc => ?_
  have hlen := hocc.le_length hn.ne_nil
  have htake : p = 0 ↔ l.take p = [] := by
    rw [take_eq_nil_iff, ← length_eq_zero_iff]
    omega
  have hhead : (l.take p).head? ≠ some 32 := by
    cases p with
    | zero => simp
    | succ p =>
      rw [head?_take]
      simpa using hfirst
  rw [← prevch_eq_comma_iff front hhead, ← htake]

/-! ## One entry -/

/-- The entry is the name between spaces, followed by nothing or by a colon and attributes. -/
structure IsEntry (entry name : List UInt8) (k b : ℕ) (tail : List UInt8) : Prop where
  eq : entry = List.replicate k 32 ++ name ++ List.replicate b 32 ++ tail
  tail : tail = [] ∨ ∃ w, tail = 58 :: w

/-- White space is only `SPACE`. -/
def OnlySpaces (l : List UInt8) : Prop := ∀ c ∈ l, isspace c = true → c = 32

theorem strim_of_spaces (hn : AttrName name) (hw : OnlySpaces name) (k b : ℕ) :
    strim (replicate k 32 ++ name ++ replicate b 32) = name := by
  have hns : ∀ c ∈ name, ¬ isspace c = true := fun c hc h => hn.no_space (hw c hc h ▸ hc)
  have hrep : ∀ n, ∀ c ∈ replicate n (32 : UInt8), isspace c = true := by
    intro n c hc
    rw [(mem_replicate.mp hc).2]
    decide
  obtain ⟨c, cs, hname⟩ := exists_cons_of_ne_nil hn.ne_nil
  have hc : ¬ isspace c = true := hns c (hname ▸ mem_cons_self)
  have hdrop : (replicate k 32 ++ name ++ replicate b 32).dropWhile isspace = name ++ replicate b 32 := by
    rw [append_assoc, dropWhile_append_of_pos (hrep k), hname, cons_append, dropWhile_cons_of_neg hc]
  rw [strim, hdrop, rdropWhile, reverse_append, reverse_replicate,
    dropWhile_append_of_pos (hrep b), dropWhile_eq_self_iff.mpr, reverse_reverse]
  intro hlen
  exact hns _ (mem_reverse.mp (getElem_mem hlen))

variable {entry tail rest : List UInt8}

/-- What `env_attr_walk` makes of an entry. -/
theorem IsEntry.attrEntry_eq (hn : AttrName name) {b : ℕ} (hw : OnlySpaces entry)
    (h : IsEntry entry name k b tail) : attrEntry entry = some (name, attributesOf entry) ∧
    entry.dropWhile (· ≠ 58) = tail := by
  have hwn : OnlySpaces name := fun c hc => hw c (by rw [h.eq]; simp [hc])
  have hno : ∀ c ∈ replicate k 32 ++ name ++ replicate b 32, decide (c ≠ 58) = true := by
    intro c hc
    have hne : c ≠ 58 := by
      rintro rfl
      simp [hn.no_colon] at hc
    simpa using hne
  have htail : tail.takeWhile (· ≠ 58) = [] ∧ tail.dropWhile (· ≠ 58) = tail := by
    rcases h.tail with rfl | ⟨w, rfl⟩ <;> simp
  have htake : entry.takeWhile (· ≠ 58) = replicate k 32 ++ name ++ replicate b 32 := by
    rw [h.eq, takeWhile_append_of_pos hno, htail.1, append_nil]
  refine ⟨?_, by rw [h.eq, dropWhile_append_of_pos hno, htail.2]⟩
  simp only [attrEntry, htake, strim_of_spaces hn hwn, ne_eq, hn.ne_nil, not_false_eq_true, if_true]

/-- What `strim` cuts off at both ends consists of spaces. -/
theorem exists_eq_strim {x : List UInt8} (hw : OnlySpaces x) :
    ∃ k b, x = replicate k 32 ++ strim x ++ replicate b 32 := by
  obtain ⟨k, hk⟩ : ∃ k, x.takeWhile isspace = replicate k 32 :=
    ⟨_, eq_replicate_of_mem fun c hc =>
      hw c ((takeWhile_sublist _).mem hc) (mem_takeWhile_imp hc)⟩
  obtain ⟨b, hb⟩ : ∃ b, (x.dropWhile isspace).rtakeWhile isspace = replicate b 32 := by
    refine ⟨_, eq_replicate_of_mem fun c hc => ?_⟩
    have hc' : c ∈ (x.dropWhile isspace).reverse.takeWhile isspace := by
      simpa [rtakeWhile] using hc
    have hmem : c ∈ x := (dropWhile_sublist _).mem (mem_reverse.mp ((takeWhile_sublist _).mem hc'))
    exact hw c hmem (mem_takeWhile_imp hc')
  refine ⟨k, b, ?_⟩
  calc x = x.takeWhile isspace ++ x.dropWhile isspace := takeWhile_append_dropWhile.symm
    _ = x.takeWhile isspace ++ ((x.dropWhile isspace).rdropWhile isspace ++
          (x.dropWhile isspace).rtakeWhile isspace) := by rw [rdropWhile_append_rtakeWhile]
    _ = replicate k 32 ++ strim x ++ replicate b 32 := by
        rw [hk, hb, strim, append_assoc]

/-- An entry whose trimmed name is `name` has that shape. -/
theorem exists_isEntry {a : Option (List UInt8)} (hw : OnlySpaces entry)
    (h : attrEntry entry = some (name, a)) : ∃ k b tail, IsEntry entry name k b tail := by
  set n₀ := entry.takeWhile (· ≠ 58)
  have hname : strim n₀ = name := by
    simp only [attrEntry] at h
    split at h
    · exact (Prod.mk.inj (Option.some.inj h)).1
    · cases h
  obtain ⟨k, b, hn⟩ := exists_eq_strim fun c hc =>
    hw c ((takeWhile_sublist _).mem hc)
  refine ⟨k, b, entry.dropWhile (· ≠ 58), ?_, ?_⟩
  · rw [← hname, ← hn, takeWhile_append_dropWhile]
  · cases hd : entry.dropWhile (· ≠ 58) with
    | nil => exact .inl rfl
    | cons c w =>
      have hc := head?_dropWhile_not (fun c : UInt8 => decide (c ≠ 58)) entry
      rw [hd] at hc
      have hc : c = 58 := by simpa using hc
      exact .inr ⟨w, by rw [hc]⟩

theorem IsEntry.drop_eq {b : ℕ} (h : IsEntry entry name k b tail) (rest : List UInt8) :
    (entry ++ rest).drop (k + name.length) = replicate b 32 ++ (tail ++ rest) := by
  rw [h.eq]
  simp [drop_append]

/-- What `env_attr_lookup` reads behind the name of an entry are the trimmed attributes. -/
theorem IsEntry.attributesAfter_eq {b : ℕ}
    (h : IsEntry entry name k b tail) (hw : OnlySpaces entry) (hcomma : 44 ∉ entry)
    (hattr : ∀ w, tail = 58 :: w → 32 ∉ strim w) (hrest : rest = [] ∨ ∃ t, rest = 44 :: t) :
    attributesAfter ((entry ++ rest).drop (k + name.length)) = match tail with
      | [] => []
      | _ :: w => strim w := by
  have hspaces : ∀ n, ∀ c ∈ replicate n (32 : UInt8), decide (c = 32) = true := by
    intro n c hc
    simpa using (mem_replicate.mp hc).2
  rw [h.drop_eq, attributesAfter, dropWhile_append_of_pos (hspaces b)]
  rcases h.tail with rfl | ⟨w, rfl⟩
  · rcases hrest with rfl | ⟨t, rfl⟩ <;> simp
  have hww : OnlySpaces w := fun c hc => hw c (by rw [h.eq]; simp [hc])
  obtain ⟨m, n, hw'⟩ := exists_eq_strim hww
  have hno := hattr w rfl
  have hc44 : 44 ∉ w := fun hc => hcomma (by rw [h.eq]; simp [hc])
  have hkeep : ∀ c ∈ strim w, decide (c ≠ 44 ∧ c ≠ 32) = true := by
    intro c hc
    have h44 : c ≠ 44 := by
      rintro rfl
      exact hc44 (by rw [hw']; simp [hc])
    have h32 : c ≠ 32 := fun heq => hno (heq ▸ hc)
    simp [h44, h32]
  have hstop : ∀ n, (replicate n 32 ++ rest).takeWhile (fun c => decide (c ≠ 44 ∧ c ≠ 32)) = [] := by
    intro n
    cases n with
    | zero => rcases hrest with rfl | ⟨t, rfl⟩ <;> simp
    | succ n => simp
  have hskip : (w ++ rest).dropWhile (· = 32) = (strim w ++ (replicate n 32 ++ rest)).dropWhile
    (· = 32) := by
    conv_lhs => rw [hw']
    rw [append_assoc, append_assoc, dropWhile_append_of_pos (hspaces m)]
  rw [cons_append, dropWhile_cons_of_neg (by simp)]
  simp only [ne_eq, not_true_eq_false, if_false]
  rw [hskip]
  cases ha : strim w with
  | nil =>
    rcases hrest with rfl | ⟨t, rfl⟩ <;> simp
  | cons c a =>
    have hc : c ≠ 32 := fun heq => hno (by rw [ha, heq]; exact mem_cons_self)
    rw [cons_append, dropWhile_cons_of_neg (by simpa using hc), ← cons_append, ← ha,
      takeWhile_append_of_pos hkeep, hstop, append_nil]

/-- The name of an entry stands in the list where the entry says. -/
theorem IsEntry.namedAt {b : ℕ} (h : IsEntry entry name k b tail)
    (hrest : rest = [] ∨ ∃ t, rest = 44 :: t) : NamedAt (entry ++ rest) name k := by
  refine ⟨?_, ?_, ?_⟩
  · refine ⟨replicate b 32 ++ tail ++ rest, ?_⟩
    rw [h.eq]
    simp
  · rw [h.eq]
    simp [Before]
  · rw [h.drop_eq, After]
    rcases h.tail with rfl | ⟨w, rfl⟩
    · rcases hrest with rfl | ⟨t, rfl⟩ <;> simp
    · simp

/-- A name that stands within an entry is the name of the entry. -/
theorem NamedAt.isEntry
    (h : NamedAt (entry ++ rest) name p) (hcomma : 44 ∉ entry) (hle : p + name.length ≤ entry.length) :
    ∃ b tail, IsEntry entry name p b tail := by
  have hpre : name <+: entry.drop p := by
    have hocc := h.occurs
    rw [OccursAt, drop_append_of_le_length (by omega)] at hocc
    exact prefix_of_prefix_length_le hocc (prefix_append _ _) (by rw [length_drop]; omega)
  obtain ⟨post, hpost⟩ := hpre
  have hentry : entry = entry.take p ++ (name ++ post) := by
    rw [hpost, take_append_drop]
  -- no comma in the entry: everything in front of the name is spaces
  have hspaces : entry.take p = replicate p 32 := by
    have hb := h.before
    rw [take_append_of_le_length (by omega)] at hb
    have hnil : (entry.take p).reverse.dropWhile (· = 32) = [] := by
      cases hd : (entry.take p).reverse.dropWhile (· = 32) with
      | nil => rfl
      | cons c t =>
        have hc : c = 44 := hb c (by rw [hd]; rfl)
        have hmem : c ∈ (entry.take p).reverse :=
          (dropWhile_sublist _).mem (by rw [hd]; exact mem_cons_self)
        refine absurd ((take_sublist _ _).mem (mem_reverse.mp hmem)) ?_
        rw [hc]
        exact hcomma
    have hall : ∀ c ∈ entry.take p, c = 32 := by
      intro c hc
      simpa using dropWhile_eq_nil_iff.mp hnil c (mem_reverse.mpr hc)
    have hl : (entry.take p).length = p := by
      rw [length_take]
      omega
    have := eq_replicate_of_mem hall
    rwa [hl] at this
  obtain ⟨b, hb⟩ : ∃ b, post.takeWhile (· = 32) = replicate b 32 :=
    ⟨_, eq_replicate_of_mem fun c hc => by simpa using mem_takeWhile_imp hc⟩
  refine ⟨b, post.dropWhile (· = 32), ?_, ?_⟩
  · rw [← hb, ← hspaces, append_assoc, append_assoc, takeWhile_append_dropWhile]
    exact hentry
  · rcases hd : post.dropWhile (· = 32) with _ | ⟨c, w⟩
    · exact .inl hd
    have hdrop : (entry ++ rest).drop (p + name.length) = post ++ rest := by
      rw [drop_append_of_le_length hle, ← drop_drop, ← hpost, drop_left]
    have hmem : c ∈ entry := by
      have : c ∈ post := (dropWhile_sublist _).mem (by rw [hd]; exact mem_cons_self)
      rw [hentry]
      simp [this]
    have ha := h.after
    rw [hdrop, After, dropWhile_append, hd] at ha
    rcases ha c (by simp) with rfl | rfl
    · exact .inr ⟨w, hd⟩
    · exact absurd hmem hcomma

theorem IsEntry.index_eq (hn : AttrName name) {b : ℕ}
    (h : IsEntry entry name k b tail) : (entry.takeWhile (· = 32)).length = k := by
  obtain ⟨c, cs, hname⟩ := exists_cons_of_ne_nil hn.ne_nil
  have hc : c ≠ 32 := fun heq => hn.no_space (by rw [hname, heq]; exact mem_cons_self)
  rw [h.eq, hname, append_assoc, append_assoc, takeWhile_append_of_pos (by simp), cons_append,
    takeWhile_cons_of_neg (by simpa using hc)]
  simp

/-! ## The whole list -/

/-- A list of the documented form: white space is only `SPACE`, and none stands within
attributes. -/
structure AttrList (l : List UInt8) : Prop where
  nul_free : 0 ∉ l
  spaces : OnlySpaces l
  attributes : ∀ entry ∈ l.splitOn 44, ∀ a ∈ attributesOf entry, 32 ∉ a

/-- The attributes `a` of the last entry with the name stand behind its last position in front of
`limit`. -/
def LastNamed (l name : List UInt8) (limit : ℕ) : Option (Option (List UInt8)) → Prop
  | none => ∀ p, p + name.length ≤ limit → ¬ NamedAt l name p
  | some a => ∃ p, p + name.length ≤ limit ∧ NamedAt l name p ∧
      (∀ q, q + name.length ≤ limit → NamedAt l name q → q ≤ p) ∧
      attributesAfter (l.drop (p + name.length)) = a.getD []

theorem lastAttributes_append (es es' : List (List UInt8 × Option (List UInt8)))
    (name : List UInt8) : lastAttributes (es ++ es') name = (lastAttributes es' name).or
    (lastAttributes es name) := by
  simp only [lastAttributes, reverse_append, find?_append]
  cases es'.reverse.find? fun e => e.1 = name <;> simp

/-- Within its first entry a list has the name at most once. -/
theorem lastNamed_entry (hn : AttrName name) (hw : OnlySpaces entry)
    (hcomma : 44 ∉ entry) (hattr : ∀ a ∈ attributesOf entry, 32 ∉ a)
    (hrest : rest = [] ∨ ∃ t, rest = 44 :: t) :
    LastNamed (entry ++ rest) name entry.length (lastAttributes (attrEntry entry).toList name) := by
  by_cases hex : ∃ k b tail, IsEntry entry name k b tail
  · obtain ⟨k, b, tail, h⟩ := hex
    obtain ⟨hentry, htail⟩ := h.attrEntry_eq hn hw
    have hlast : lastAttributes (attrEntry entry).toList name = some (attributesOf entry) := by
      simp [lastAttributes, hentry]
    have hattr' : ∀ w, tail = 58 :: w → 32 ∉ strim w := by
      intro w hw'
      refine hattr (strim w) ?_
      rw [attributesOf, htail, hw']
      rfl
    rw [hlast]
    refine ⟨k, ?_, h.namedAt hrest, ?_, ?_⟩
    · rw [h.eq]
      simp only [length_append, length_replicate]
      omega
    · intro q hq hnamed
      obtain ⟨b', tail', h'⟩ := hnamed.isEntry hcomma hq
      exact ((h'.index_eq hn).symm.trans (h.index_eq hn)).le
    · rw [h.attributesAfter_eq hw hcomma hattr' hrest, attributesOf, htail]
      cases tail <;> rfl
  · have hlast : lastAttributes (attrEntry entry).toList name = none := by
      cases hentry : attrEntry entry with
      | none => rfl
      | some e =>
        have hne : e.1 ≠ name := by
          rintro rfl
          exact hex (exists_isEntry hw hentry)
        simp [lastAttributes, hne]
    rw [hlast]
    intro p hp hnamed
    obtain ⟨b, tail, h⟩ := hnamed.isEntry hcomma hp
    exact hex ⟨p, b, tail, h⟩

/-- A comma separates what stands in front of it from what stands behind. -/
theorem before_append_comma (x y : List UInt8) : Before (x ++ 44 :: y) ↔ Before y := by
  simp only [Before, reverse_append, reverse_cons, dropWhile_append]
  cases h : y.reverse.dropWhile (· = 32) <;> simp

theorem drop_comma (entry rest : List UInt8) (n : ℕ) :
    (entry ++ 44 :: rest).drop (entry.length + 1 + n) = rest.drop n := by
  rw [Nat.add_assoc, drop_append, drop_of_length_le (by omega), nil_append,
    show entry.length + (1 + n) - entry.length = n + 1 by omega, drop_succ_cons]

theorem namedAt_shift (entry rest : List UInt8) (p : ℕ) :
    NamedAt (entry ++ 44 :: rest) name (entry.length + 1 + p) ↔ NamedAt rest name p := by
  have htake : (entry ++ 44 :: rest).take (entry.length + 1 + p) = entry ++ 44 :: rest.take p := by
    rw [Nat.add_assoc, take_append, take_of_length_le (by omega),
      show entry.length + (1 + p) - entry.length = p + 1 by omega, take_succ_cons]
  rw [namedAt_iff, namedAt_iff, OccursAt, OccursAt, drop_comma, htake, before_append_comma,
    Nat.add_assoc, drop_comma]

/-- No name reaches over a comma. -/
theorem NamedAt.lt_or_le (hn : AttrName name) (h : NamedAt (entry ++ 44 :: rest) name p) :
    p + name.length ≤ entry.length ∨ entry.length + 1 ≤ p := by
  by_contra hcon
  push Not at hcon
  obtain ⟨t, ht⟩ := h.occurs
  have hget : (entry ++ 44 :: rest)[entry.length]? = some 44 := by simp
  have hname : name[entry.length - p]? = some 44 := by
    have h1 : ((entry ++ 44 :: rest).drop p)[entry.length - p]? = some 44 := by
      rw [getElem?_drop, show p + (entry.length - p) = entry.length by omega, hget]
    rwa [← ht, getElem?_append_left (by omega)] at h1
  exact hn.no_comma (mem_of_getElem? hname)

/-- The last entry with the name stands at the last position of the name. -/
theorem lastNamed_attrEntries (hn : AttrName name) (hl : AttrList l) :
    LastNamed l name l.length (lastAttributes (attrEntries l) name) := by
  -- induction over the entries, from the front
  induction hlen : l.length using Nat.strong_induction_on generalizing l with
  | _ n ih =>
    by_cases hcomma : 44 ∈ l
    · obtain ⟨entry, rest, rfl, hentry⟩ := eq_append_cons_of_mem hcomma
      have hsplit : (entry ++ 44 :: rest).splitOn 44 = entry :: rest.splitOn 44 := by
        rw [splitOn_append_cons_self, splitOn_eq_singleton hentry]
        rfl
      have hent : attrEntries (entry ++ 44 :: rest) = (attrEntry entry).toList ++ attrEntries rest := by
        rw [attrEntries, hsplit, filterMap_cons]
        cases attrEntry entry <;> rfl
      have hlrest : AttrList rest :=
        ⟨fun h => hl.nul_free (by simp [h]), fun c hc => hl.spaces c (by simp [hc]),
          fun e he => hl.attributes e (by rw [hsplit]; exact mem_cons_of_mem _ he)⟩
      have hfirst := lastNamed_entry hn (fun c hc => hl.spaces c (by simp [hc])) hentry
        (hl.attributes entry (by rw [hsplit]; exact mem_cons_self)) (.inr ⟨rest, rfl⟩)
      have hih := ih rest.length (by rw [← hlen]; simp; omega) hlrest rfl
      have hn' : n = entry.length + 1 + rest.length := by
        rw [← hlen, length_append, length_cons]
        omega
      rw [hent, lastAttributes_append, hn']
      generalize lastAttributes (attrEntries rest) name = r at hih ⊢
      cases r with
      | some a =>
        -- the name stands behind the first comma
        obtain ⟨p, hple, hp, hmax, ha⟩ := hih
        refine ⟨entry.length + 1 + p, by omega, (namedAt_shift entry rest p).mpr hp, ?_, ?_⟩
        · intro q hq hnamed
          rcases hnamed.lt_or_le hn with hlt | hle
          · omega
          · obtain ⟨q', rfl⟩ := Nat.exists_eq_add_of_le hle
            have := hmax q' (by omega) ((namedAt_shift entry rest q').mp hnamed)
            omega
        · rw [← ha, Nat.add_assoc, drop_comma]
      | none =>
        have hnone : ∀ q, entry.length + 1 ≤ q → q + name.length ≤ entry.length + 1 + rest.length →
            ¬ NamedAt (entry ++ 44 :: rest) name q := by
          intro q hle hq hnamed
          obtain ⟨q', rfl⟩ := Nat.exists_eq_add_of_le hle
          exact hih q' (by omega) ((namedAt_shift entry rest q').mp hnamed)
        generalize lastAttributes (attrEntry entry).toList name = r at hfirst ⊢
        cases r with
        | none =>
          intro q hq hnamed
          rcases hnamed.lt_or_le hn with hlt | hle
          · exact hfirst q hlt hnamed
          · exact hnone q hle hq hnamed
        | some a =>
          obtain ⟨p, hple, hp, hmax, ha⟩ := hfirst
          refine ⟨p, by omega, hp, fun q hq hnamed => ?_, ha⟩
          rcases hnamed.lt_or_le hn with hlt | hle
          · exact hmax q hlt hnamed
          · exact absurd hnamed (hnone q hle hq)
    · have hsplit : l.splitOn 44 = [l] := splitOn_eq_singleton hcomma
      have hent : attrEntries l = (attrEntry l).toList := by
        rw [attrEntries, hsplit, filterMap_cons]
        cases attrEntry l <;> rfl
      have hentry := lastNamed_entry hn hl.spaces hcomma
        (hl.attributes l (by rw [hsplit]; exact mem_cons_self)) (.inl rfl)
      rw [append_nil] at hentry
      rw [hent, ← hlen]
      exact hentry

/-- What `env_attr_lookup` should return: the attributes `env_attr_walk` passes last for the
name. -/
def walkedLast (l name : List UInt8) : AttrLookup :=
  match lastAttributes (attrEntries l) name with
  | none => .notFound
  | some a => .found (a.getD [])

/-- Where exact matches are the names of entries, `env_attr_lookup` gives what `env_attr_walk`
passes last. -/
theorem envAttrLookup_of_standsAt (hn : AttrName name) (hl : AttrList l)
    (hiff : ∀ p, StandsAt front l name p ↔ NamedAt l name p) : envAttrLookup front l name =
    walkedLast l name := by
  have hlast := lastNamed_attrEntries hn hl
  have hle : ∀ p, NamedAt l name p → p + name.length ≤ l.length :=
    fun p hp => hp.occurs.le_length hn.ne_nil
  have hspec := envAttrLookup_spec hn front l
  rw [walkedLast]
  generalize envAttrLookup front l name = r at hspec ⊢
  generalize lastAttributes (attrEntries l) name = r' at hlast ⊢
  cases r with
  | hang => exact hspec.elim
  | notFound =>
    cases r' with
    | none => rfl
    | some a =>
      obtain ⟨p, -, hp, -⟩ := hlast
      exact absurd ((hiff p).mpr hp) (hspec p)
  | found a =>
    obtain ⟨p, hp, hmax, rfl⟩ := hspec
    have hp' := (hiff p).mp hp
    cases r' with
    | none => exact absurd hp' (hlast p (hle p hp'))
    | some a =>
      obtain ⟨q, -, hq, hqmax, ha⟩ := hlast
      have h1 := hqmax p (hle p hp') hp'
      have h2 := hmax q ((hiff q).mpr hq)
      obtain rfl : p = q := by omega
      rw [ha]

/-- On a list of the documented form that does not start with a space, `env_attr_lookup` gives what
`env_attr_walk` passes last for the name. -/
theorem envAttrLookup_eq (hn : AttrName name) (hl : AttrList l) (hfirst : l.head? ≠ some 32)
    (front : UInt8) : envAttrLookup front l name = match lastAttributes (attrEntries l) name with
      | none => .notFound
      | some a => .found (a.getD []) :=
  envAttrLookup_of_standsAt hn hl fun _ => standsAt_iff hn hl.nul_free hfirst

end Lookup

end UBoot.Env
