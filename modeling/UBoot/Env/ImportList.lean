import UBoot.Env.ImportBounds
import UBoot.Env.RoundTrip

/-!
# Importing a list of variables

Reference: `lib/hashtable.c` (`drop_var_from_set`, `himport_r`), `common/env_common.c`
(`set_default_vars`).

With a list of variables `himport_r` strikes a name off the list when it first meets it, and passes
over the names that are not on the list, so the first definition in the text counts. Without a list
every definition is entered, and the last one counts.
-/

namespace UBoot.Env

open UBoot.Common List Function

/-! ### The entries of a text -/

/-- The entries the parse loop comes to. -/
def itemsOf (sep : UInt8) (behind : ℕ) : ℕ → List UInt8 → List Item
  | 0, _ => []
  | fuel + 1, dp =>
    match parseItem sep dp with
    | none => []
    | some (item, rest) =>
      if behind < rest.length ∧ rest.head? ≠ some 0 then item :: itemsOf sep behind fuel rest else [item]

/-- A value for an empty name, where the import ends. -/
def Item.refused : Item → Bool
  | .enter name _ => name = ∅
  | _ => false

/-- A variable and its new value; `none` deletes it. -/
def Item.setting : Item → Option (CStr × Option CStr)
  | .comment => none
  | .delete name => some (name, none)
  | .enter name value => some (name, some value)

/-- What the entries in front of a refused one set. -/
def settings (items : List Item) : List (CStr × Option CStr) :=
  (items.takeWhile fun item => !item.refused).filterMap Item.setting

/-- The definitions of one variable. -/
def definitions (items : List Item) (name : CStr) : List (Option CStr) :=
  ((settings items).filter fun c => c.1 = name).map Prod.snd

/-- The changes made by the import with a list of variables. -/
def changes : List Item → List (Option CStr) → List (CStr × Option CStr)
  | [], vars => vars.filterMap (Option.map fun name => (name, none))
  | item :: items, vars =>
    if item.refused then []
    else
      match item.setting with
      | none => changes items vars
      | some c =>
        if (dropVarFromSet c.1 vars).1 then c :: changes items (dropVarFromSet c.1 vars).2
        else changes items (dropVarFromSet c.1 vars).2

/-- A map after some changes. -/
def applyChanges (m : CStr → Option CStr) (cs : List (CStr × Option CStr)) : CStr → Option CStr :=
  cs.foldl (fun m c => update m c.1 c.2) m

/-! ### What the changes amount to -/

section Changes

variable {name : CStr} {items : List Item} {vars : List (Option CStr)}

variable (m : CStr → Option CStr)

theorem applyChanges_cons (c : CStr × Option CStr) (cs : List (CStr × Option CStr)) :
    applyChanges m (c :: cs) = applyChanges (update m c.1 c.2) cs := rfl

/-- The last change of a name counts. -/
theorem applyChanges_apply (cs : List (CStr × Option CStr)) (name : CStr) :
    applyChanges m cs name = (((cs.filter fun c => c.1 = name).map Prod.snd).getLast?).getD (m name) := by
  induction cs generalizing m with
  | nil => rfl
  | cons c cs ih =>
    rw [applyChanges_cons, ih, filter_cons]
    by_cases hc : c.1 = name
    · subst hc
      rw [update_self, if_pos (decide_eq_true rfl), map_cons, getLast?_cons]
      rfl
    · rw [update_of_ne (Ne.symm hc), if_neg (by simpa using hc)]

theorem settings_cons (item : Item) (items : List Item) :
    settings (item :: items) = if item.refused then [] else item.setting.toList ++ settings items := by
  rw [settings, takeWhile_cons]
  cases item.refused with
  | true => rfl
  | false =>
    cases h : item.setting with
    | none => exact filterMap_cons_none h
    | some c => exact filterMap_cons_some h

/-- Without a list every setting is carried out. -/
theorem changes_nil (items : List Item) : changes items [] = settings items := by
  induction items with
  | nil => rfl
  | cons item items ih =>
    rw [changes, settings_cons]
    split
    · rfl
    · cases item.setting with
      | none => exact ih
      | some c => exact congrArg (c :: ·) ih

theorem dropVarFromSet_eq (name : CStr) (hne : vars ≠ []) :
    dropVarFromSet name vars = (vars.contains (some name), vars.map fun v => if v =
    some name then none else v) :=
  if_neg fun h => hne (length_eq_zero_iff.mp h)

theorem dropVarFromSet_ne_nil (name : CStr) (hne : vars ≠ []) :
    (dropVarFromSet name vars).2 ≠ [] := by
  rw [dropVarFromSet_eq name hne]
  exact fun h => hne (map_eq_nil_iff.mp h)

/-- The other names stay on the list. -/
theorem mem_dropVarFromSet {n : CStr} (hne : vars ≠ []) :
    some name ∈ (dropVarFromSet n vars).2 ↔ some name ∈ vars ∧ name ≠ n := by
  rw [dropVarFromSet_eq n hne, mem_map]
  constructor
  · rintro ⟨v, hv, heq⟩
    split at heq
    · cases heq
    · next hvn =>
      subst heq
      exact ⟨hv, fun h => hvn (congrArg some h)⟩
  · rintro ⟨hv, hn⟩
    exact ⟨some name, hv, if_neg fun h => hn (Option.some.inj h)⟩

theorem dropVarFromSet_fst {n : CStr} (hne : vars ≠ []) :
    (dropVarFromSet n vars).1 = true ↔ some n ∈ vars := by
  rw [dropVarFromSet_eq n hne, contains_iff_mem]

/-- The value a listed variable gets: its first definition counts, and without one it is deleted
unless the import is refused. -/
def listedValue (items : List Item) (name : CStr) (old : Option CStr) : Option CStr :=
  (definitions items name).head?.getD (if items.any Item.refused then old else none)

theorem definitions_cons (item : Item) (items : List Item) (name : CStr) :
    definitions (item :: items) name = if item.refused then []
      else ((item.setting.toList.filter fun c => c.1 = name).map Prod.snd) ++ definitions items name := by
  rw [definitions, settings_cons]
  split
  · rfl
  · rw [filter_append, map_append]
    rfl

/-- Every name that is left on the list is deleted. -/
theorem applyChanges_left (vars : List (Option CStr)) :
    applyChanges m (changes [] vars) name = if some name ∈ vars then none else m name := by
  induction vars generalizing m with
  | nil => rfl
  | cons v vars ih =>
    rcases v with _ | n
    · simp only [mem_cons, reduceCtorEq, false_or]
      exact ih m
    rw [show changes [] (some n :: vars) = (n, none) :: changes [] vars from rfl, applyChanges_cons, ih]
    by_cases hn : name = n <;> simp [hn]

/-- A name that is not on the list is left alone. -/
theorem applyChanges_changes (hne : vars ≠ []) :
    applyChanges m (changes items vars) name =
      if some name ∈ vars then listedValue items name (m name) else m name := by
  induction items generalizing m vars with
  | nil => exact applyChanges_left m vars
  | cons item items ih =>
    rw [changes, listedValue, definitions_cons, any_cons]
    cases hr : item.refused with
    | true => exact (ite_self _).symm
    | false =>
      rw [if_neg Bool.false_ne_true]
      rcases item.setting with _ | c
      · exact ih m hne
      have hrest := fun m => ih m (dropVarFromSet_ne_nil c.1 hne)
      simp only [mem_dropVarFromSet hne] at hrest
      simp only [dropVarFromSet_fst hne]
      by_cases hc : c.1 = name
      · subst hc
        split
        · rw [applyChanges_cons, hrest]
          simp
        · rw [hrest, if_neg (by simp)]
      · have hnil : ([c].filter fun c => c.1 = name) = [] := by simpa using hc
        simp only [and_iff_left (Ne.symm hc)] at hrest
        rw [Option.toList_some, hnil]
        split
        · rw [applyChanges_cons, hrest, update_of_ne (Ne.symm hc)]
          rfl
        · exact hrest m

end Changes

/-! ### Carrying out the changes -/

section Table

variable {κ γ : Type} {hk : Hooks κ γ} {flag : ℕ} {s : State κ γ} {m : CStr → Option CStr}

/-- Carry out one change. -/
def change (hk : Hooks κ γ) (flag : ℕ) (s : State κ γ) (c : CStr × Option CStr) : State κ γ :=
  match c.2 with
  | none => (hdeleteR hk c.1 flag s).1
  | some value => (hsearchR hk c.1 (.enter value) flag s).1

/-- A new entry finds room, and not in a live slot. -/
def HasRoom (s : State κ γ) (c : CStr × Option CStr) : Prop :=
  c.2 = none ∨ ¬ ReusesLiveSlot s.htab c.1 ∧ (lookup s.htab c.1 = none → s.htab.filled ≠ s.htab.size)

instance (s : State κ γ) (c : CStr × Option CStr) : Decidable (HasRoom s c) :=
  inferInstanceAs (Decidable (_ ∨ _))

variable {item : Item} {vars : List (Option CStr)}

section

variable (hp : hk.Permissive)

include hp

theorem enter_rep (flag : ℕ) (hr : Rep s.htab m) {name value : CStr}
    (hroom : HasRoom s (name, some value)) : (hsearchR hk name (.enter value) flag s).2 ≠ .hang ∧
      Rep (hsearchR hk name (.enter value) flag s).1.htab (update m name (some value)) := by
  obtain ⟨hsafe, hfull⟩ := hroom.resolve_left nofun
  rcases hsearchR_enter hp.toBenign hr name value flag hsafe with
    ⟨_, hres, -, hrep⟩ | ⟨_, hres, -, hrep⟩ | ⟨e, hres, -, hcount⟩
  · exact ⟨by rw [hres]; simp, hrep⟩
  · exact ⟨by rw [hres]; simp, hrep⟩
  · obtain ⟨hnone, hcount⟩ := hcount (hsearchR_enter_failed hp hres)
    exact absurd hcount (hfull ((hr.lookup_eq name).trans hnone))

theorem delete_rep (flag : ℕ) (hr : Rep s.htab m) (name : CStr) :
    (hdeleteR hk name flag s).2 ≠ .hang ∧ Rep (hdeleteR hk name flag s).1.htab (update m name none) := by
  rcases hdeleteR_spec hp.toBenign hr name flag with ⟨_, hres, hrep⟩ | ⟨e, hres, hrep, hnone⟩
  · exact ⟨by rw [hres]; simp, hrep⟩
  · rw [update_eq_self_iff.mpr (hnone (hdeleteR_failed hp hres)).symm]
    exact ⟨by rw [hres]; simp, hrep⟩

/-- An entry that is not refused carries out its setting when the name is on the list. -/
theorem processItem_setting (hr : Rep s.htab m) {c : CStr × Option CStr}
    (hc : item.setting = some c) (hnot : item.refused = false)
    (hroom : (dropVarFromSet c.1 vars).1 = true → HasRoom s c) :
    processItem hk flag item vars s =
      (.ok (if (dropVarFromSet c.1 vars).1 then change hk flag s c else s),
      (dropVarFromSet c.1 vars).2) := by
  cases item with
  | comment => cases hc
  | delete name =>
    cases hc
    rw [processItem]
    dsimp only
    split
    · have hang := (delete_rep hp flag hr name).1
      rw [change]
      split
      · next heq =>
        rw [heq] at hang
        exact absurd rfl hang
      · next heq => rw [heq]
    · rfl
  | enter name value =>
    cases hc
    have hname : name ≠ ∅ := of_decide_eq_false hnot
    rw [processItem, if_neg hname]
    dsimp only
    split
    · next hlisted =>
      have hang := (enter_rep hp flag hr (hroom hlisted)).1
      rw [change]
      dsimp only
      split
      · next heq =>
        rw [heq] at hang
        exact absurd rfl hang
      · next heq => rw [heq]
    · rfl

/-- A change with room is one of the map. -/
theorem change_rep (hr : Rep s.htab m) {c : CStr × Option CStr} (hroom : HasRoom s c) :
    Rep (change hk flag s c).htab (update m c.1 c.2) := by
  obtain ⟨name, _ | value⟩ := c
  · exact (delete_rep hp flag hr name).2
  · exact (enter_rep hp flag hr hroom).2

/-- The table an import leaves behind when it returns. -/
def Import.table : Import κ γ → Option (Htab κ)
  | .ok s => some s.htab
  | .failed _ s => some s.htab
  | _ => none

theorem deleteUnseen_changes (vars : List (Option CStr)) (hr : Rep s.htab m) :
    ∃ t, (deleteUnseen hk flag vars s).table = some t ∧ Rep t (applyChanges m (changes [] vars)) := by
  induction vars generalizing s m with
  | nil => exact ⟨_, rfl, hr⟩
  | cons v vars ih =>
    rcases v with _ | name
    · exact ih hr
    obtain ⟨hang, hrep⟩ := delete_rep hp flag hr name
    rw [deleteUnseen]
    split
    · next heq =>
      rw [heq] at hang
      exact absurd rfl hang
    · next heq =>
      rw [heq] at hrep
      exact ih hrep

/-- An entry that is not refused carries out the first of the changes, or none. -/
theorem processItem_changes (hr : Rep s.htab m) (hnot : item.refused = false) {items : List Item}
    (hroom : Guarded (change hk flag) HasRoom s (changes (item :: items) vars)) :
    ∃ s' vars' m', processItem hk flag item vars s = (.ok s', vars') ∧ Rep s'.htab m' ∧
      Guarded (change hk flag) HasRoom s' (changes items vars') ∧
      applyChanges m (changes (item :: items) vars) = applyChanges m' (changes items vars') := by
  rw [changes, hnot] at hroom ⊢
  cases hset : item.setting with
  | none =>
    cases item with
    | comment => exact ⟨s, vars, m, rfl, hr, hroom, rfl⟩
    | delete name => cases hset
    | enter name value => cases hset
  | some c =>
    rw [hset] at hroom
    dsimp only at hroom ⊢
    by_cases hlisted : (dropVarFromSet c.1 vars).1 = true
    · rw [if_pos hlisted] at hroom ⊢
      refine ⟨change hk flag s c, (dropVarFromSet c.1 vars).2, _, ?_, change_rep hp hr hroom.1,
        hroom.2, rfl⟩
      rw [processItem_setting hp hr hset hnot fun _ => hroom.1, if_pos hlisted]
    · rw [if_neg hlisted] at hroom ⊢
      refine ⟨s, (dropVarFromSet c.1 vars).2, m, ?_, hr, hroom, rfl⟩
      rw [processItem_setting hp hr hset hnot fun h => absurd h hlisted, if_neg hlisted]

end

theorem processItem_refused (h : item.refused = true) (vars : List (Option CStr)) (s : State κ γ) :
    processItem hk flag item vars s = (.failed .einval s, vars) := by
  cases item with
  | comment | delete name => cases h
  | enter name value => exact if_pos (of_decide_eq_true h)

/-- The parse loop carries out the changes. -/
theorem importLoop_changes (hp : hk.Permissive) {sep : UInt8} {behind : ℕ}
    (fuel : ℕ) {dp : List UInt8}
    (hterm : Terminated sep behind dp) (hfuel : dp.length ≤ fuel) (hr : Rep s.htab m)
    (hroom : Guarded (change hk flag) HasRoom s (changes (itemsOf sep behind fuel dp) vars)) :
    ∃ t, (importLoop hk sep flag behind fuel dp vars s).table = some t ∧
      Rep t (applyChanges m (changes (itemsOf sep behind fuel dp) vars)) := by
  obtain ⟨item, rest, hparse⟩ := hterm.parseItem
  induction fuel generalizing dp item rest vars s m with
  | zero =>
    obtain rfl := length_eq_zero_iff.mp (Nat.le_zero.mp hfuel)
    cases hparse
  | succ fuel ih =>
    rw [itemsOf, hparse] at hroom ⊢
    rw [importLoop, hparse]
    dsimp only at hroom ⊢
    cases href : item.refused with
    | true =>
      rw [processItem_refused href]
      have hnone : ∀ items, changes (item :: items) vars = [] :=
        fun items => by rw [changes, href, if_pos rfl]
      refine ⟨s.htab, rfl, ?_⟩
      split <;> (rw [hnone]; exact hr)
    | false =>
      by_cases hgo : behind < rest.length ∧ rest.head? ≠ some 0
      · rw [if_pos hgo] at hroom ⊢
        obtain ⟨s', vars', m', hproc, hr', hroom', heq⟩ := processItem_changes hp hr href hroom
        have hnext := next_of_processItem rest hproc
        have hterm' := hterm.rest hparse hnext hgo
        obtain ⟨item', rest', hparse'⟩ := hterm'.parseItem
        have hclosed := closed_of_parseItem hparse
        rw [hnext] at hclosed
        obtain ⟨l, hl, rfl⟩ := hclosed.suffix
        have hpos := length_pos_of_ne_nil hl
        rw [length_append] at hfuel
        rw [hproc, heq]
        dsimp only
        rw [if_pos hgo]
        exact ih hterm' (by omega) hr' hroom' item' rest' hparse'
      · rw [if_neg hgo] at hroom ⊢
        obtain ⟨s', vars', m', hproc, hr', -, heq⟩ := processItem_changes hp hr href hroom
        rw [hproc, heq]
        dsimp only
        rw [if_neg hgo]
        exact deleteUnseen_changes hp vars' hr'

end Table

/-! ### The import with and without a list -/

section Select

variable {κ γ : Type} {hk : Hooks κ γ} {sep : UInt8} {flag flag' : ℕ}
  {crlfIsLf : Bool} {env : List UInt8} {vars : List CStr}

/-- The entries of a text that is imported. -/
def textItems (sep : UInt8) (crlfIsLf : Bool) (env : List UInt8) : List Item :=
  itemsOf sep (importBehind crlfIsLf env) env.length (importCopy crlfIsLf env)

/-- The import with the list gives each listed variable what the import of the whole text gives it,
and leaves the other variables alone. -/
def Selects (htab : Htab κ) (vars : List CStr) (listed whole : Import κ γ) : Prop :=
  ∃ t t', listed.table = some t ∧ whole.table = some t' ∧ (∀ name ∈ vars, lookup t name = lookup t' name) ∧
    ∀ name ∉ vars, lookup t name = lookup htab name

/-- The import of a terminated text carries out its changes. -/
theorem himportR_changes (hp : hk.Permissive) (vars : List CStr) {old : Option (Htab κ)}
    {htab : Htab κ} {globals : γ} (hstart : startTable old flag env = some htab)
    {m : CStr → Option CStr} (hr : Rep htab m)
    (hterm : Terminated sep (importBehind crlfIsLf env) (importCopy crlfIsLf env))
    (hroom : Guarded (change hk flag) HasRoom ⟨htab, globals⟩
      (changes (textItems sep crlfIsLf env) (vars.map some))) :
    ∃ t, (himportR hk old globals env sep flag crlfIsLf vars).table = some t ∧
      Rep t (applyChanges m (changes (textItems sep crlfIsLf env) (vars.map some))) := by
  have henv : env ≠ [] := by
    rintro rfl
    obtain ⟨item, rest, hparse⟩ := hterm.parseItem
    have hnil : importCopy crlfIsLf [] = [] := length_eq_zero_iff.mp length_importCopy
    rw [hnil] at hparse
    cases hparse
  rw [himportR_of_startTable hk globals henv hstart]
  exact importLoop_changes hp _ hterm length_importCopy.le hr hroom

theorem listedValue_eq_iff (items : List Item) (name : CStr) (old : Option CStr) :
    listedValue items name old = (definitions items name).getLast?.getD none ↔
      (definitions items name).head? = (definitions items name).getLast? ∧
        (definitions items name = [] → items.any Item.refused → old = none) := by
  rw [listedValue]
  cases definitions items name with
  | nil => cases items.any Item.refused <;> simp
  | cons v l =>
    rw [getLast?_eq_some_getLast (cons_ne_nil v l)]
    simp

/-- With room for the new entries in both tables, the import with a list picks the listed variables
out of the text if and only if the first and the last definition of each of them agree, and none
that is missing in a refused text was set before. -/
theorem himportR_selects_iff (hp : hk.Permissive) {htab empty : Htab κ} {old : Option (Htab κ)}
    {globals globals' : γ} {m : CStr → Option CStr} (hr : Rep htab m) (hvars : vars ≠ [])
    (hflag : flag &&& hNoclear ≠ 0)
    (hstart : startTable old flag' env = some empty) (hempty : Rep empty fun _ => none)
    (hterm : Terminated sep (importBehind crlfIsLf env) (importCopy crlfIsLf env))
    (hroom : Guarded (change hk flag) HasRoom ⟨htab, globals⟩
      (changes (textItems sep crlfIsLf env) (vars.map some)))
    (hroom' : Guarded (change hk flag') HasRoom ⟨empty, globals'⟩
      (settings (textItems sep crlfIsLf env))) :
    Selects htab vars (himportR hk (some htab) globals env sep flag crlfIsLf vars)
        (himportR hk old globals' env sep flag' crlfIsLf []) ↔
      ∀ name ∈ vars, (definitions (textItems sep crlfIsLf env) name).head? =
            (definitions (textItems sep crlfIsLf env) name).getLast? ∧
          (definitions (textItems sep crlfIsLf env) name = [] →
            (textItems sep crlfIsLf env).any Item.refused → lookup htab name = none) := by
  have hstart' : startTable (some htab) flag env = some htab := by
    rw [startTable, if_neg hflag]
    rfl
  obtain ⟨t, ht, hrt⟩ := himportR_changes hp vars hstart' hr hterm hroom
  rw [← changes_nil] at hroom'
  obtain ⟨t', ht', hrt'⟩ := himportR_changes hp [] hstart hempty hterm hroom'
  rw [map_nil, changes_nil] at hrt'
  have hne : vars.map some ≠ [] := fun h => hvars (map_eq_nil_iff.mp h)
  have hlisted : ∀ name ∈ vars, lookup t name = listedValue (textItems sep crlfIsLf env) name
    (lookup htab name) := by
    intro name hname
    rw [hrt.lookup_eq, hr.lookup_eq]
    exact (applyChanges_changes m hne).trans (if_pos (mem_map_of_mem hname))
  have hothers : ∀ name ∉ vars, lookup t name = lookup htab name := by
    intro name hname
    rw [hrt.lookup_eq, hr.lookup_eq]
    refine (applyChanges_changes m hne).trans (if_neg fun hmem => ?_)
    obtain ⟨n, hn, heq⟩ := mem_map.mp hmem
    exact hname (Option.some.inj heq ▸ hn)
  have hwhole : ∀ name, lookup t' name =
    (definitions (textItems sep crlfIsLf env) name).getLast?.getD none := by
    intro name
    rw [hrt'.lookup_eq]
    exact applyChanges_apply _ _ name
  constructor
  · rintro ⟨u, u', hu, hu', hagree, -⟩ name hname
    obtain rfl := Option.some.inj (ht.symm.trans hu)
    obtain rfl := Option.some.inj (ht'.symm.trans hu')
    rw [← listedValue_eq_iff, ← hlisted name hname, hagree name hname, hwhole]
  · intro hends
    refine ⟨t, t', ht, ht', fun name hname => ?_, hothers⟩
    rw [hlisted name hname, hwhole, listedValue_eq_iff]
    exact hends name hname

/-- Importing `a` from `a=1`, `b=2`, `a=1` gives it the value of the whole text and leaves `b`
unset. -/
theorem himportR_selects_repeated :
    Selects smallTable [letter 97]
      (himportR noHooks (some smallTable) () [97, 61, 49, 0, 98, 61, 50, 0, 97, 61, 49, 0, 0] 0
        hNoclear false [letter 97])
      (himportR noHooks (some smallTable) () [97, 61, 49, 0, 98, 61, 50, 0, 97, 61, 49, 0, 0] 0
        hNoclear false []) := by
  have hrep : Rep smallTable fun _ => none := rep_fresh ⟨Nat.prime_five, by omega, by omega⟩
  refine (himportR_selects_iff noHooks_permissive hrep (cons_ne_nil _ _) (by decide) rfl hrep
    (terminated_of_getLast _ rfl) (by decide +kernel) (by decide +kernel)).mpr ?_
  decide +kernel

/-- Importing `a` from `a=1`, `a=2` gives it the value 1; the whole text sets it to 2. -/
theorem not_selects_twice :
    ¬ Selects smallTable [letter 97]
      (himportR noHooks (some smallTable) () [97, 61, 49, 0, 97, 61, 50, 0, 0] 0
      hNoclear false [letter 97])
      (himportR noHooks (some smallTable) () [97, 61, 49, 0, 97, 61, 50, 0, 0] 0 hNoclear false []) := by
  rintro ⟨t, t', ht, ht', hagree, -⟩
  have hlisted : (himportR noHooks (some smallTable) () [97, 61, 49, 0, 97, 61, 50, 0, 0] 0 hNoclear false
      [letter 97]).table.map (lookup · (letter 97)) = some (some (letter 49)) := by decide +kernel
  have hwhole : (himportR noHooks (some smallTable) () [97, 61, 49, 0, 97, 61, 50, 0, 0] 0 hNoclear
      false []).table.map (lookup · (letter 97)) = some (some (letter 50)) := by decide +kernel
  rw [ht, Option.map_some, hagree _ mem_cons_self] at hlisted
  rw [ht', Option.map_some, hlisted] at hwhole
  cases hwhole

end Select

end UBoot.Env
