import UBoot.Burning.Ini
import Mathlib.Data.List.TakeWhile

/-!
# What a line of an INI file means

`Spells item line` lists the spellings of a set line and of a key with a value: any number of blanks
at both ends, inside the brackets and around the `=`. Whichever number of words a spelling has, the
parser takes it for the item. The second part is about lines that spell nothing, and about the value
returned for them.
-/

namespace UBoot.Burning.Ini

open List

/-- What a line says. -/
inductive Item where
  | set (name : List UInt8)
  | keyValue (key val : List UInt8)

/-- The characters of a name: neither blanks nor delimiters. -/
def IsName (w : List UInt8) : Prop := ∀ c ∈ w, isSpaceChar c = false ∧ isDelimeter c = false

/-- Any number of blanks. -/
def IsGap (b : List UInt8) : Prop := ∀ c ∈ b, isSpaceChar c

instance (w : List UInt8) : Decidable (IsName w) :=
  List.decidableBAll _ w

instance (b : List UInt8) : Decidable (IsGap b) := List.decidableBAll _ b

/-- The spellings of an item. -/
inductive Spells : Item → List UInt8 → Prop
  | set (name b₀ b₁ b₂ b₃ : List UInt8) : IsName name → IsGap b₀ → IsGap b₁ → IsGap b₂ → IsGap b₃ →
      Spells (.set name) (b₀ ++ ([91] ++ (b₁ ++ (name ++ (b₂ ++ ([93] ++ b₃))))))
  | keyValue (key val b₀ b₁ b₂ b₃ : List UInt8) : IsName key → IsName val → IsGap b₀ → IsGap b₁ →
      IsGap b₂ → IsGap b₃ → Spells (.keyValue key val)
      (b₀ ++ (key ++ (b₁ ++ ([61] ++ (b₂ ++ (val ++ b₃))))))

/-- The characters of the names in an item. -/
def Item.chars : Item → List UInt8
  | .set name => name
  | .keyValue key val => key ++ val

/-- The line the parser should see. -/
def Item.parsed : Item → IniLine
  | .set name => .set name
  | .keyValue key val => .keyValue key (valueOf val)

/-- With a character that is not allowed in files, the line is refused. -/
def Item.outcome (item : Item) : IniLine :=
  if item.chars.all isValidChar then item.parsed else .invalidChars

/-! ## Words and gaps -/

variable {w b cur rest : List UInt8}

/-- No character is a blank. -/
def IsWord (w : List UInt8) : Prop := ∀ c ∈ w, isSpaceChar c = false

theorem IsName.isWord (h : IsName w) : IsWord w := fun c hc => (h c hc).1

variable {c d : UInt8} {b' line : List UInt8}

theorem IsName.ne_of_isDelimeter (h : IsName w) (hc : c ∈ w) (hd : isDelimeter d) : c ≠ d := by
  rintro rfl
  rw [(h c hc).2] at hd
  exact Bool.false_ne_true hd

/-- A name does not contain a delimiter. -/
theorem IsName.not_mem (h : IsName w) (hd : isDelimeter d) : d ∉ w := fun hmem =>
  h.ne_of_isDelimeter hmem hd rfl

theorem dropWhile_word (hw : IsWord w) (hne : w ≠ []) (rest : List UInt8) :
    (w ++ rest).dropWhile isSpaceChar = w ++ rest := by
  cases w with
  | nil => exact absurd rfl hne
  | cons c w =>
    rw [cons_append, dropWhile_cons_of_neg (by rw [hw c mem_cons_self]; decide)]

theorem wordLoop_word (hw : IsWord w) (rest cur : List UInt8) :
    wordLoop (w ++ rest) (some cur) = wordLoop rest (some (cur ++ w)) := by
  induction w generalizing cur with
  | nil => rw [nil_append, append_nil]
  | cons c w ih =>
    rw [cons_append, wordLoop, hw c mem_cons_self, if_neg Bool.false_ne_true,
      ih (forall_mem_cons.mp hw).2, append_assoc, singleton_append]

variable (hb : IsGap b)
include hb

theorem wordLoop_gap (rest : List UInt8) : wordLoop (b ++ rest) none = wordLoop rest none := by
  induction b with
  | nil => rfl
  | cons c b ih =>
    rw [cons_append, wordLoop, if_pos (hb c mem_cons_self), ih (forall_mem_cons.mp hb).2]

/-- A word behind a gap: it continues the word in front of it when the gap is empty. -/
theorem wordLoop_gap_word (hw : IsWord w) (hne : w ≠ []) (rest cur : List UInt8) :
    wordLoop (b ++ (w ++ rest)) (some cur) = wordLoop rest (some (cur ++ w)) ∨
      wordLoop (b ++ (w ++ rest)) (some cur) = cur :: wordLoop rest (some w) := by
  rcases b with _ | ⟨c, b⟩
  · exact .inl (wordLoop_word hw rest cur)
  refine .inr ?_
  rw [cons_append, wordLoop, if_pos (hb c mem_cons_self), wordLoop_gap (forall_mem_cons.mp hb).2]
  obtain ⟨x, w, rfl⟩ := exists_cons_of_ne_nil hne
  rw [cons_append, wordLoop, hw x mem_cons_self, if_neg Bool.false_ne_true,
    wordLoop_word (forall_mem_cons.mp hw).2, singleton_append]

/-- Blanks at the end. -/
theorem wordLoop_end (cur : List UInt8) : wordLoop b (some cur) = [cur] := by
  cases b with
  | nil => rfl
  | cons c b =>
    have hgap := wordLoop_gap (forall_mem_cons.mp hb).2 []
    rw [append_nil] at hgap
    rw [wordLoop, if_pos (hb c mem_cons_self), hgap, wordLoop]

theorem IsGap.append (hb' : IsGap b') : IsGap (b ++ b') := fun c hc =>
  (mem_append.mp hc).elim (hb c) (hb' c)

/-- A value behind a gap at the end of the line. -/
theorem wordLoop_value (hw : IsWord w) (hb' : IsGap b') (cur : List UInt8) :
    (w = [] ∧ wordLoop (b ++ (w ++ b')) (some cur) = [cur]) ∨
      (w ≠ [] ∧ (wordLoop (b ++ (w ++ b')) (some cur) = [cur ++ w] ∨
        wordLoop (b ++ (w ++ b')) (some cur) = [cur, w])) := by
  by_cases hne : w = []
  · subst hne
    exact .inl ⟨rfl, wordLoop_end (hb.append hb') cur⟩
  · refine .inr ⟨hne, ?_⟩
    rcases wordLoop_gap_word hb hw hne b' cur with h | h
    · exact .inl (by rw [h, wordLoop_end hb'])
    · exact .inr (by rw [h, wordLoop_end hb'])

omit hb

theorem isWord_singleton (h : isSpaceChar c = false) : IsWord [c] := fun x hx => by
  rwa [mem_singleton.mp hx]

/-- The words of a line from its first one on. -/
theorem line2Words_gap_word (hb : IsGap b) (hw : IsWord w) (hne : w ≠ []) (rest : List UInt8) :
    line2Words (b ++ (w ++ rest)) = wordLoop rest (some w) := by
  rw [line2Words, dropWhile_append_of_pos hb, dropWhile_word hw hne, wordLoop_word hw, nil_append]

/-! ## Set lines -/

variable {name key val b₀ b₁ b₂ b₃ : List UInt8}

/-- The words are taken for the item. -/
def Item.Read (item : Item) (words : List (List UInt8)) : Prop := classify words = item.parsed ∧
    words.length ≤ 3

/-- Every number of words gives the name. -/
theorem read_set (hname : IsName name) (h₀ : IsGap b₀) (h₁ : IsGap b₁)
    (h₂ : IsGap b₂) (h₃ : IsGap b₃) :
    (Item.set name).Read (line2Words (b₀ ++ ([91] ++ (b₁ ++ (name ++ (b₂ ++ ([93] ++ b₃))))))) := by
  have hopen : IsWord [91] := isWord_singleton rfl
  have hclose : IsWord [93] := isWord_singleton rfl
  have heq : name ≠ [61] := fun h => hname.not_mem rfl (by rw [h]; exact mem_singleton_self _)
  have hone : (Item.set name).Read [91 :: (name ++ [93])] := by
    have hlast : (91 :: (name ++ [93])).getLast? = some 93 := by rw [← cons_append, getLast?_concat]
    rw [Item.Read, classify, if_pos ⟨rfl, hlast⟩, tail_cons, dropLast_concat]
    exact ⟨rfl, by simp⟩
  have htwo : (Item.set name).Read [91 :: name, [93]] := by simp [Item.Read, Item.parsed, classify]
  rw [line2Words_gap_word h₀ hopen (cons_ne_nil _ _)]
  by_cases hne : name = []
  · subst hne
    rw [nil_append, ← append_assoc]
    rcases wordLoop_gap_word (h₁.append h₂) hclose (cons_ne_nil _ _) b₃
        [91] with h | h <;> rw [h, wordLoop_end h₃]
    · exact hone
    · exact htwo
  · rcases wordLoop_gap_word h₁ hname.isWord hne (b₂ ++ ([93] ++ b₃)) [91] with h | h <;> rw [h]
    · rcases wordLoop_gap_word h₂ hclose (cons_ne_nil _ _) b₃
          ([91] ++ name) with h | h <;> rw [h, wordLoop_end h₃]
      · exact hone
      · exact htwo
    · rcases wordLoop_gap_word h₂ hclose (cons_ne_nil _ _) b₃
        name with h | h <;> rw [h, wordLoop_end h₃] <;> simp [Item.Read, Item.parsed, classify, heq]

/-! ## Keys with values -/

/-- The words of a key with a value, up to the `=`. -/
theorem line2Words_key (hkey : IsName key) (h₀ : IsGap b₀) (h₁ : IsGap b₁) (rest : List UInt8) :
    line2Words (b₀ ++ (key ++ (b₁ ++ ([61] ++ rest)))) = wordLoop rest (some (key ++ [61])) ∨
      (key ≠ [] ∧ line2Words (b₀ ++ (key ++ (b₁ ++ ([61] ++ rest)))) = key :: wordLoop
      rest (some [61])) := by
  have hassign : IsWord [61] := isWord_singleton rfl
  by_cases hne : key = []
  · subst hne
    rw [nil_append, ← append_assoc, line2Words_gap_word (h₀.append h₁) hassign (cons_ne_nil _ _)]
    exact .inl rfl
  · rw [line2Words_gap_word h₀ hkey.isWord hne]
    exact (wordLoop_gap_word h₁ hassign (cons_ne_nil _ _) rest key).imp_right fun h => ⟨hne, h⟩

theorem head?_ne_of_not_mem (h : d ∉ w) : w.head? ≠ some d := fun hhead =>
  h (mem_of_mem_head? hhead)

/-- One word with a `=` in it. -/
theorem classify_one (hkey : IsName key) (val : List UInt8) :
    classify [key ++ 61 :: val] = .keyValue key (valueOf val) := by
  have hopen : (key ++ 61 :: val).head? ≠ some 91 := by
    cases key with
    | nil => simp
    | cons c key =>
      have hc := hkey.ne_of_isDelimeter mem_cons_self (d := 91) rfl
      simpa using hc
  have hpass : ∀ c ∈ key, decide (c ≠ 61) = true := fun c hc =>
    decide_eq_true (hkey.ne_of_isDelimeter hc rfl)
  rw [classify, if_neg fun h => hopen h.1, dropWhile_append_of_pos hpass, takeWhile_append_of_pos hpass]
  simp

/-- Every number of words gives the key and the value. -/
theorem read_keyValue (hkey : IsName key) (hval : IsName val) (h₀ : IsGap b₀)
    (h₁ : IsGap b₁) (h₂ : IsGap b₂) (h₃ : IsGap b₃) :
    (Item.keyValue key val).Read (line2Words (b₀ ++ (key ++ (b₁ ++ ([61] ++ (b₂ ++ (val ++ b₃))))))) := by
  have hopen : key.head? ≠ some 91 := head?_ne_of_not_mem (hkey.not_mem rfl)
  have hval61 : 61 ∉ val := hval.not_mem rfl
  have hvalHead : val.head? ≠ some 61 := head?_ne_of_not_mem hval61
  have hvalNe : val ≠ [61] := fun h => hval61 (by rw [h]; exact mem_singleton_self _)
  rcases line2Words_key hkey h₀ h₁ (b₂ ++ (val ++ b₃)) with hleft | ⟨hne, hleft⟩ <;> rw [hleft]
  · rcases wordLoop_value h₂ hval.isWord h₃ (key ++ [61]) with ⟨rfl, h⟩ | ⟨hvne, h | h⟩ <;> rw [h]
    · exact ⟨classify_one hkey [], by simp⟩
    · rw [append_assoc]
      exact ⟨classify_one hkey val, by simp⟩
    · have hopen' : (key ++ [61]).head? ≠ some 91 := by
        cases key with
        | nil => simp
        | cons c key => exact hopen
      rw [Item.Read, classify, if_neg hopen', if_neg hvalNe, if_neg hvalHead,
        if_pos getLast?_concat, dropLast_concat, Item.parsed, valueOf, if_neg hvne]
      exact ⟨rfl, by simp⟩
  · rcases wordLoop_value h₂ hval.isWord h₃ [61] with ⟨rfl, h⟩ | ⟨hvne, h | h⟩ <;> rw [h]
    all_goals simp [Item.Read, Item.parsed, classify, hopen, valueOf]
    · simp [hvne]
    · simp [hvne]

/-! ## Spacing does not matter -/

theorem all_gap (hb : IsGap b) : b.all (fun c => isDelimeter c || isValidChar c || isSpaceChar c) :=
  all_eq_true.mpr fun c hc => by rw [hb c hc, Bool.or_true]

theorem all_name (hw : IsName w) :
    w.all (fun c => isDelimeter c || isValidChar c || isSpaceChar c) = w.all isValidChar := by
  induction w with
  | nil => rfl
  | cons c w ih =>
    obtain ⟨hspace, hdelim⟩ := hw c mem_cons_self
    rw [all_cons, all_cons, ih (forall_mem_cons.mp hw).2, hspace, hdelim, Bool.false_or, Bool.or_false]

/-- The tests in front of the `switch` pass for at most three words of allowed characters. -/
theorem parseLine_of_read {item : Item} (hvalid : lineIsValid line = item.chars.all isValidChar)
    (hread : item.Read (line2Words line)) : parseLine line = item.outcome := by
  have hlen := hread.2
  rw [parseLine, hvalid, Item.outcome, hread.1]
  cases item.chars.all isValidChar with
  | false => rfl
  | true => rw [Bool.not_true, if_neg Bool.false_ne_true, if_neg (by omega), if_neg (by omega), if_pos rfl]

/-- Whatever the spacing, the parser sees the item. -/
theorem Spells.parseLine_eq {item : Item} (h : Spells item line) :
    parseLine line = item.outcome := by
  cases h with
  | set name b₀ b₁ b₂ b₃ hname h₀ h₁ h₂ h₃ =>
    refine parseLine_of_read ?_ (read_set hname h₀ h₁ h₂ h₃)
    simp only [lineIsValid, all_append, all_gap h₀, all_gap h₁, all_gap h₂, all_gap h₃, all_name hname]
    simp [Item.chars, isDelimeter]
  | keyValue key val b₀ b₁ b₂ b₃ hkey hval h₀ h₁ h₂ h₃ =>
    refine parseLine_of_read ?_ (read_keyValue hkey hval h₀ h₁ h₂ h₃)
    simp only [lineIsValid, all_append, all_gap h₀, all_gap h₁, all_gap h₂, all_gap h₃,
      all_name hkey, all_name hval]
    simp [Item.chars, isDelimeter]

variable {σ : Type*}

theorem transLoop_append (cb : Callbacks σ) (st : TransState σ)
    (pre post : List (Option (List UInt8))) :
    transLoop cb st (pre ++ post) = match transLoop cb st pre with
      | .error e => .error e
      | .ok st' => transLoop cb st' post := by
  induction pre generalizing st with
  | nil => rfl
  | cons line pre ih =>
    rw [cons_append, transLoop, transLoop]
    cases transLine cb st line with
    | error e => rfl
    | ok st' => exact ih st'

variable {l : List UInt8}

/-- The callback that an item leads to, with the strings it is called with: `pCheckSetUseFul` for a
set, and for a key with a value `pParseCfgVal` with the current set, if there is one. -/
def Item.callback (cb : Callbacks σ) (currentSet : Option (List UInt8)) (usr : σ) : Item → σ
  | .set name => (cb.checkSetUseFul usr name).2
  | .keyValue key val => currentSet.elim usr fun set => (cb.parseCfgVal usr set key (valueOf val)).2

/-- The state of the callbacks, where the loop is left or goes on. -/
def usrOf : Except (ℤ × σ) (TransState σ) → σ
  | .error e => e.2
  | .ok st => st.usr

theorem usrOf_transLine {item : Item} (h : parseLine l = item.parsed) (cb : Callbacks σ)
    (st : TransState σ) : usrOf (transLine cb st (some l)) = item.callback cb
    st.currentSetName st.usr := by
  rw [transLine, h]
  cases item with
  | set name =>
    dsimp only [Item.parsed, transSet]
    split_ifs <;> rfl
  | keyValue key val =>
    dsimp only [Item.parsed, transKeyValue, Item.callback]
    cases st.currentSetName with
    | none => rfl
    | some set =>
      dsimp only
      split_ifs <;> rfl

/-- All spellings of a set or of a key with a value make the same callback with the same strings:
the line is taken for the item, a file that ends with it makes the callback of the item last, and no
run with any callbacks tells two spellings apart. -/
theorem spells_sameCallback {item : Item} {l l' : List UInt8} (h : Spells item l)
    (h' : Spells item l') : parseLine l = item.outcome ∧
      (item.chars.all isValidChar → ∀ (cb : Callbacks σ) (usr : σ) pre st,
        transLoop cb (initState usr) pre = .ok st →
        (transLines2UsrParams cb usr (pre ++ [some l])).2 = item.callback cb st.currentSetName st.usr) ∧
      ∀ (cb : Callbacks σ) (usr : σ) (pre post : List (Option (List UInt8))),
        transLines2UsrParams cb usr (pre ++ some l :: post) = transLines2UsrParams cb usr
        (pre ++ some l' :: post) := by
  refine ⟨h.parseLine_eq, fun hvalid cb usr pre st hpre => ?_, fun cb usr pre post => ?_⟩
  · have hparse : parseLine l = item.parsed := by rw [h.parseLine_eq, Item.outcome, if_pos hvalid]
    rw [← usrOf_transLine hparse, transLines2UsrParams, transLoop_append, hpre]
    dsimp only
    rw [transLoop]
    cases transLine cb st (some l) <;> rfl
  -- lines that are taken for the same thing can replace each other
  have hline : ∀ st, transLine cb st (some l) = transLine cb st (some l') := fun st => by
    rw [transLine, transLine, h.parseLine_eq, h'.parseLine_eq]
  simp only [transLines2UsrParams, transLoop_append]
  simp only [transLoop, hline]

/-- Callbacks that take every set and note what they are called with. -/
def notingCallbacks : Callbacks (List (List UInt8)) where
  checkSetUseFul := fun notes name => (1, notes ++ [name])
  parseCfgVal := fun notes set key val => (0, notes ++ [set, key, val.getD []])

/-- `key=value` with blanks around the `=`, in a set. -/
theorem spells_sameCallback_assignment :
    (transLines2UsrParams notingCallbacks []
      ([some [91, 115, 93]] ++ [some [32, 107, 32, 61, 9, 118]])).2 = [[115], [115], [107], [118]] :=
  have hspells : Spells (.keyValue [107] [118]) [32, 107, 32, 61, 9, 118] :=
    .keyValue [107] [118] [32] [32] [9] [] (by decide) (by decide) (by decide) (by decide)
      (by decide) (by decide)
  (spells_sameCallback hspells hspells).2.1 rfl notingCallbacks [] [some [91, 115, 93]] _ rfl

/-! ## Errors -/

variable {cb : Callbacks σ} {st st' : TransState σ} {lines : List (Option (List UInt8))}

/-- What a line of a file meets: the state of the callbacks, the useful sets in front of it, and the
current one. -/
structure Setting (σ : Type*) where
  usr : σ
  sets : List (List UInt8)
  current : Option (List UInt8)

/-- What a set or a key leaves behind, by the answers of the callbacks. At most eight useful sets
are taken. -/
def Setting.after (cb : Callbacks σ) (s : Setting σ) : IniLine → Setting σ
  | .set name =>
    let (useful, usr) := cb.checkSetUseFul s.usr name
    if useful = 0 ∨ 8 ≤ s.sets.length then ⟨usr, s.sets, none⟩ else ⟨usr, s.sets ++ [name], some name⟩
  | .keyValue key val =>
    { s with usr := s.current.elim s.usr fun set => (cb.parseCfgVal s.usr set key val).2 }
  | _ => s

/-- The lines of a file, each with what it meets if no line in front of it ends the reading. -/
def visits (cb : Callbacks σ) : Setting σ → List (Option (List UInt8)) → List (Setting σ × IniLine)
  | _, [] => []
  | s, none :: lines => visits cb s lines
  | s, some l :: lines => (s, parseLine l) :: visits cb (s.after cb (parseLine l)) lines

/-- A key is passed on to `pParseCfgVal`, which reports an error. -/
def CallbackFails (cb : Callbacks σ) : Setting σ × IniLine → Prop
  | (s, .keyValue key val) => ∃ set, s.current = some set ∧ (cb.parseCfgVal s.usr set key val).1 ≠ 0
  | _ => False

/-- A line that is reported at once: a character that is not allowed, more than three words, a
useful set that was there before, or an error of `pParseCfgVal`. -/
def Refused (cb : Callbacks σ) : Setting σ × IniLine → Prop
  | (_, .invalidChars) | (_, .noWords) | (_, .tooManyWords) => True
  | (s, .set name) => (cb.checkSetUseFul s.usr name).1 ≠ 0 ∧ name ∈ s.sets
  | v => CallbackFails cb v

/-- A key of a useful set. -/
def passesKey : Setting σ × IniLine → Bool
  | (s, .keyValue _ _) => s.current.isSome
  | _ => false

/-- Some line of three words is neither form, and no key of a useful set follows. -/
def LastIsError : List (Setting σ × IniLine) → Prop
  | [] => False
  | v :: vs => (v.2 = .syntaxError ∧ ∀ v' ∈ vs, ¬ passesKey v') ∨ LastIsError vs

/-! ### One line -/

/-- The variables without `ret`. -/
def TransState.setting (st : TransState σ) : Setting σ :=
  ⟨st.usr, st.cacheSetNames, st.currentSetName⟩

/-- The loop is left with an error if the line is refused, or goes on from a state with `Q`. -/
def Leaves (refused : Prop) (Q : TransState σ → Prop) : Except (ℤ × σ) (TransState σ) → Prop
  | .error e => e.1 ≠ 0 ∧ refused
  | .ok st => ¬ refused ∧ Q st

theorem transSet_leaves (cb : Callbacks σ) (st : TransState σ) (name : List UInt8) :
    Leaves (Refused cb (st.setting, .set name))
      (fun st' => st'.setting = st.setting.after cb (.set name) ∧ st'.ret = st.ret)
      (transSet cb st name) := by
  rw [transSet]
  dsimp only [Refused, Setting.after, TransState.setting]
  by_cases huse : (cb.checkSetUseFul st.usr name).1 = 0
  · rw [if_pos huse, if_pos (.inl huse)]
    exact ⟨fun h => h.1 huse, rfl, rfl⟩
  rw [if_neg huse]
  by_cases hmem : name ∈ st.cacheSetNames
  · rw [if_pos hmem]
    exact ⟨(by decide : (401 : ℤ) ≠ 0), huse, hmem⟩
  rw [if_neg hmem]
  by_cases hfull : st.cacheSetNames.length < 8
  · rw [if_pos hfull, if_neg (not_or.mpr ⟨huse, not_le.mpr hfull⟩)]
    exact ⟨fun h => hmem h.2, rfl, rfl⟩
  · rw [if_neg hfull, if_pos (.inr (not_lt.mp hfull))]
    exact ⟨fun h => hmem h.2, rfl, rfl⟩

/-- What a line does to `ret`. -/
theorem transLine_leaves (cb : Callbacks σ) (st : TransState σ) (l : List UInt8) :
    Leaves (Refused cb (st.setting, parseLine l))
      (fun st' => st'.setting = st.setting.after cb (parseLine l) ∧
        st'.ret = if parseLine l = .syntaxError then 300 else if passesKey
        (st.setting, parseLine l) then 0 else st.ret)
      (transLine cb st (some l)) := by
  rw [transLine]
  cases parseLine l with
  | invalidChars => exact ⟨(by decide : (264 : ℤ) ≠ 0), trivial⟩
  | noWords => exact ⟨(by decide : (271 : ℤ) ≠ 0), trivial⟩
  | tooManyWords => exact ⟨(by decide : (276 : ℤ) ≠ 0), trivial⟩
  | syntaxError | noType => exact ⟨not_false, rfl, rfl⟩
  | set name => exact transSet_leaves cb st name
  | keyValue key val =>
    obtain ⟨ret, sets, current, usr⟩ := st
    cases current with
    | none => exact ⟨fun ⟨_, hset, _⟩ => absurd hset (Option.some_ne_none _).symm, rfl, rfl⟩
    | some set =>
      dsimp only [transKeyValue]
      by_cases hret : (cb.parseCfgVal usr set key val).1 = 0
      · rw [if_neg (not_not.mpr hret)]
        exact ⟨fun ⟨_, hset, hne⟩ => hne (Option.some.inj hset ▸ hret), rfl, hret⟩
      · rw [if_pos hret]
        exact ⟨hret, set, rfl, hret⟩

/-! ### A whole run -/

/-- The value returned by a run. -/
theorem transLoop_leaves (cb : Callbacks σ) (st : TransState σ)
    (lines : List (Option (List UInt8))) : Leaves (∃ v ∈ visits cb st.setting lines, Refused cb v)
      (fun st' => st'.ret ≠ 0 ↔ (st.ret ≠ 0 ∧ ∀ v ∈ visits cb st.setting lines, ¬ passesKey v) ∨
        LastIsError (visits cb st.setting lines)) (transLoop cb st lines) := by
  induction lines generalizing st with
  | nil => simp [transLoop, Leaves, visits, LastIsError]
  | cons line lines ih =>
    rcases line with _ | l
    · exact ih st
    have hline := transLine_leaves cb st l
    rw [transLoop, visits]
    rcases htrans : transLine cb st (some l) with e | st₁
    · rw [htrans] at hline
      exact ⟨hline.1, _, mem_cons_self, hline.2⟩
    rw [htrans] at hline
    obtain ⟨hok, hsetting, hret⟩ := hline
    have hrest := ih st₁
    rw [hsetting] at hrest
    generalize visits cb (st.setting.after cb (parseLine l)) lines = vs at *
    dsimp only
    rcases hloop : transLoop cb st₁ lines with e | st'
    · rw [hloop] at hrest
      exact ⟨hrest.1, hrest.2.imp fun _ h => ⟨mem_cons_of_mem _ h.1, h.2⟩⟩
    rw [hloop] at hrest
    refine ⟨by simpa [hok] using hrest.1, hrest.2.trans ?_⟩
    rw [LastIsError, forall_mem_cons]
    -- `ret` is set by an error and by a key, and kept otherwise
    by_cases herr : parseLine l = .syntaxError
    · rw [if_pos herr] at hret
      have hnone : ¬ passesKey (st.setting, parseLine l) = true := by
        rw [herr]; exact Bool.false_ne_true
      have hset : (300 : ℤ) ≠ 0 := by decide
      rw [hret]
      tauto
    · rw [if_neg herr] at hret
      by_cases hkey : passesKey (st.setting, parseLine l) = true
      · simp [hret, herr, hkey]
      · rw [if_neg hkey] at hret
        simp [hret, herr, hkey]

/-- An error is reported: with a line that is neither form, or a callback that fails, the value
returned is not 0. -/
def Reports (cb : Callbacks σ) (usr : σ) (lines : List (Option (List UInt8))) : Prop :=
  (∃ l, some l ∈ lines ∧ ¬ ∃ item, Spells item l) ∨
      (∃ v ∈ visits cb ⟨usr, [], none⟩ lines, CallbackFails cb v) →
    (transLines2UsrParams cb usr lines).1 ≠ 0

theorem CallbackFails.refused {v : Setting σ × IniLine} (h : CallbackFails cb v) :
    Refused cb v := by
  obtain ⟨s, line⟩ := v
  cases line with
  | keyValue key val => exact h
  | _ => exact h.elim

/-- Errors are reported exactly when every line is one of the forms, or some line is refused, or a
line of three words that is neither form has no key of a useful set behind it. -/
theorem reports_invalid_iff (cb : Callbacks σ) (usr : σ) (lines : List (Option (List UInt8))) :
    Reports cb usr lines ↔ (∀ l, some l ∈ lines → ∃ item, Spells item l) ∨
      (∃ v ∈ visits cb ⟨usr, [], none⟩ lines, Refused cb v) ∨
      LastIsError (visits cb ⟨usr, [], none⟩ lines) := by
  have hret : (transLines2UsrParams cb usr lines).1 ≠ 0 ↔
      (∃ v ∈ visits cb ⟨usr, [], none⟩ lines, Refused cb v) ∨
      LastIsError (visits cb ⟨usr, [], none⟩ lines) := by
    have hloop := transLoop_leaves cb (initState usr) lines
    rw [transLines2UsrParams]
    cases h : transLoop cb (initState usr) lines with
    | error e =>
      rw [h] at hloop
      exact iff_of_true hloop.1 (.inl hloop.2)
    | ok st =>
      rw [h] at hloop
      refine hloop.2.trans ?_
      rw [or_iff_right fun h => h.1 rfl]
      exact (or_iff_right hloop.1).symm
  rw [Reports, hret]
  constructor
  · intro h
    by_cases hall : ∀ l, some l ∈ lines → ∃ item, Spells item l
    · exact .inl hall
    · push Not at hall
      obtain ⟨l, hmem, hnot⟩ := hall
      exact .inr (h (.inl ⟨l, hmem, fun ⟨item, hitem⟩ => hnot item hitem⟩))
  · rintro (hall | hret) hbad
    · rcases hbad with ⟨l, hmem, hnot⟩ | ⟨v, hv, hfails⟩
      · exact absurd (hall l hmem) hnot
      · exact .inl ⟨v, hv, hfails.refused⟩
    · exact hret

/-- A line taken for neither form is neither. -/
theorem not_spells (h : parseLine l = .noType ∨ parseLine l = .syntaxError) :
    ¬ ∃ item, Spells item l := by
  rintro ⟨item, hitem⟩
  rw [hitem.parseLine_eq, Item.outcome] at h
  cases item <;> rw [Item.parsed] at h <;> split at h <;> simp at h

/-- A single word that is no assignment is passed over; an error in a line of three words is
forgotten at the next key. -/
theorem not_reports_word :
    ¬ Reports notingCallbacks [] [some [104, 105]] ∧
      ¬ Reports notingCallbacks [] [some [91, 115, 93], some [97, 32, 98, 32, 99],
      some [107, 61, 118]] := by
  constructor
  · intro h
    exact h (.inl ⟨_, mem_singleton_self _, not_spells (.inl (by decide))⟩) (by decide)
  · intro h
    exact h (.inl ⟨[97, 32, 98, 32, 99], by decide, not_spells (.inr (by decide))⟩) (by decide)

theorem reports_threeWords : Reports notingCallbacks [] [some [97, 32, 98, 32, 99]] :=
  (reports_invalid_iff notingCallbacks [] _).mpr (.inr (.inr (.inl ⟨by decide, nofun⟩)))

end UBoot.Burning.Ini
