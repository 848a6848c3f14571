import Daybook.Proofs.Settings.Overrides
import Daybook.Settings.Document
import Mathlib.Data.List.Nodup

/-!
# The order of variables

The variables of an environment come in no certain order, but each name comes once. What they
do to settings is then known from the texts that are found for the eight keys: the same
settings in every order, or an error in every order. Only the variable that the error names
may be another one, if there are several that cannot be read.
-/

namespace Daybook.Settings

variable {s t u : Settings} {environment environment' : List (String × String)}
  {key : OverrideKey} {name value : String}

/-- Every text that is found for a key can be read. -/
def IsReadable (environment : List (String × String)) : Prop :=
  ∀ key : OverrideKey, ∀ value, environment.lookup key.variableName = some value →
    (key.read? value).isSome = true

/-- The settings that variables make of others: a key has the value that its variable says, or
the old one if there is no such variable, and nothing else is changed. -/
structure Reflects (s : Settings) (environment : List (String × String)) (t : Settings) :
    Prop where
  beyond : s.AgreesBeyondKeys t
  get_eq : ∀ key : OverrideKey,
    key.get t = ((environment.lookup key.variableName).bind key.read?).getD (key.get s)

/-- Two lists of variables that have the same texts for the keys make the same settings of the same
ones. -/
theorem Reflects.unique (h : s.Reflects environment t) (h' : s.Reflects environment' u)
    (hlookup : ∀ key : OverrideKey,
      environment.lookup key.variableName = environment'.lookup key.variableName) : t = u := by
  refine h.beyond.eq h'.beyond fun key => ?_
  rw [h.get_eq, h'.get_eq, hlookup]

/-- Under a name that no variable has, nothing is found. -/
theorem lookup_eq_none (h : name ∉ environment.map Prod.fst) : environment.lookup name = none := by
  rw [List.lookup_eq_none_iff]
  intro entry hentry
  rw [bne_iff_ne]
  rintro rfl
  exact h (List.mem_map_of_mem hentry)

/-- A variable that is no key does not matter to the keys. -/
theorem lookup_cons_of_none (hname : OverrideKey.ofVariable? name = none) (key : OverrideKey) :
    ((name, value) :: environment).lookup key.variableName =
      environment.lookup key.variableName := by
  have hne : key.variableName ≠ name := by
    rintro rfl
    rw [OverrideKey.ofVariable?_variableName] at hname
    cases hname
  rw [List.lookup_cons, beq_eq_false_iff_ne.mpr hne]

/-- The variable of one key does not stand in the way of the others. -/
theorem lookup_cons_of_ne {other : OverrideKey} (hname : OverrideKey.ofVariable? name = some key)
    (hne : other ≠ key) : ((name, value) :: environment).lookup other.variableName =
      environment.lookup other.variableName := by
  have hother : other.variableName ≠ name := fun h =>
    hne (OverrideKey.variableName_injective (h.trans (OverrideKey.variableName_eq hname).symm))
  rw [List.lookup_cons, beq_eq_false_iff_ne.mpr hother]

/-- The variable of a key gives its text to the key. -/
theorem lookup_cons_self (hname : OverrideKey.ofVariable? name = some key) :
    ((name, value) :: environment).lookup key.variableName = some value := by
  rw [OverrideKey.variableName_eq hname, List.lookup_cons_self]

/-- Variables with different names that meet no error can all be read, and make the settings that
they say. The variable of a key does not come again, so that the rest leaves its value. -/
theorem reflects_of_eq (hnames : (environment.map Prod.fst).Nodup)
    (h : s.applyOverrides environment = (t, none)) :
    IsReadable environment ∧ s.Reflects environment t := by
  induction s, environment using variables_induction with
  | nil s =>
    obtain rfl : s = t := congrArg Prod.fst h
    exact ⟨fun _ _ hvalue => (nomatch hvalue), agreesBeyondKeys_refl s, fun _ => rfl⟩
  | other s name value environment hname ih =>
    obtain ⟨-, hnames⟩ := List.nodup_cons.mp hnames
    rw [applyOverrides_cons_of_none hname] at h
    obtain ⟨hreadable, hbeyond, hget⟩ := ih hnames h
    refine ⟨fun key text => ?_, hbeyond, fun key => ?_⟩
    · rw [lookup_cons_of_none hname]
      exact hreadable key text
    · rw [lookup_cons_of_none hname, hget]
  | unreadable s name value environment key hname hread =>
    rw [applyOverrides_cons_of_unreadable hname hread] at h
    cases h
  | read s name value environment key v hname hread ih =>
    obtain ⟨hnew, hnames⟩ := List.nodup_cons.mp hnames
    rw [applyOverrides_cons_of_read hname hread] at h
    obtain ⟨hreadable, hbeyond, hget⟩ := ih hnames h
    have hgone : environment.lookup key.variableName = none := by
      rw [OverrideKey.variableName_eq hname]
      exact lookup_eq_none hnew
    refine ⟨fun other text htext => ?_, (agreesBeyondKeys_set key v s).trans hbeyond,
      fun other => ?_⟩
    · by_cases heq : other = key
      · subst heq
        rw [lookup_cons_self hname, Option.some.injEq] at htext
        rw [← htext, hread]
        rfl
      · exact hreadable other text (by rwa [lookup_cons_of_ne hname heq] at htext)
    · rw [hget]
      by_cases heq : other = key
      · subst heq
        rw [hgone, lookup_cons_self hname, Option.bind_some, hread]
        exact OverrideKey.get_set _ v s
      · rw [lookup_cons_of_ne hname heq, OverrideKey.get_set_of_ne heq]

/-- Variables with different names of which one meets an error cannot all be read. -/
theorem not_isReadable_of_error (hnames : (environment.map Prod.fst).Nodup)
    {error : SettingsError} (h : (s.applyOverrides environment).2 = some error) :
    ¬IsReadable environment := by
  intro hreadable
  obtain ⟨before, name, value, after, key, rfl, -, hname, hread, -⟩ := exists_before_error h
  rw [List.map_append, List.map_cons] at hnames
  have hbefore : name ∉ before.map Prod.fst := fun hmem =>
    (List.nodup_append.mp hnames).2.2 name hmem name List.mem_cons_self rfl
  have hlookup : (before ++ (name, value) :: after).lookup key.variableName = some value := by
    rw [OverrideKey.variableName_eq hname, List.lookup_append, lookup_eq_none hbefore,
      List.lookup_cons_self]
    rfl
  have hvalue := hreadable key value hlookup
  rw [hread] at hvalue
  cases hvalue

/-- Variables with different names, in two lists that have the same texts for the keys. -/
structure SameTexts (environment environment' : List (String × String)) : Prop where
  nodup_left : (environment.map Prod.fst).Nodup
  nodup_right : (environment'.map Prod.fst).Nodup
  lookup_eq : ∀ key : OverrideKey,
    environment.lookup key.variableName = environment'.lookup key.variableName

/-- The settings after either list of variables are the same, or both lists have a text that
cannot be read. -/
theorem SameTexts.applyOverrides_eq_or (h : SameTexts environment environment') (s : Settings) :
    (∃ t, s.applyOverrides environment = (t, none) ∧ s.applyOverrides environment' = (t, none) ∧
        s.Reflects environment t) ∨
      ∃ key value key' value',
        (s.applyOverrides environment).2 = some (.badValue key value) ∧
          (s.applyOverrides environment').2 = some (.badValue key' value') := by
  have hreadable : IsReadable environment ↔ IsReadable environment' := by
    simp only [IsReadable, h.lookup_eq]
  obtain ⟨t, error, ht⟩ : ∃ t error, s.applyOverrides environment = (t, error) := ⟨_, _, rfl⟩
  obtain ⟨u, error', hu⟩ : ∃ u error', s.applyOverrides environment' = (u, error') := ⟨_, _, rfl⟩
  cases error with
  | none =>
    obtain ⟨hread, hreflects⟩ := reflects_of_eq h.nodup_left ht
    cases error' with
    | none =>
      obtain ⟨-, hreflects'⟩ := reflects_of_eq h.nodup_right hu
      obtain rfl := hreflects.unique hreflects' h.lookup_eq
      exact .inl ⟨t, ht, hu, hreflects⟩
    | some error' =>
      have hunread := not_isReadable_of_error h.nodup_right (congrArg Prod.snd hu)
      exact absurd (hreadable.mp hread) hunread
  | some error =>
    have hunread := not_isReadable_of_error h.nodup_left (congrArg Prod.snd ht)
    cases error' with
    | none => exact absurd (hreadable.mpr (reflects_of_eq h.nodup_right hu).1) hunread
    | some error' =>
      obtain ⟨_, _, value, _, key, -, -, -, -, rfl⟩ := exists_before_error (congrArg Prod.snd ht)
      obtain ⟨_, _, value', _, key', -, -, -, -, rfl⟩ :=
        exists_before_error (congrArg Prod.snd hu)
      exact .inr ⟨key.name, value, key'.name, value', congrArg Prod.snd ht, congrArg Prod.snd hu⟩

/-- Where names differ, a text is found under a name if the two stand together in the list. -/
theorem lookup_eq_some_iff (hnames : (environment.map Prod.fst).Nodup) :
    environment.lookup name = some value ↔ (name, value) ∈ environment := by
  induction environment with
  | nil => simp
  | cons entry environment ih =>
    obtain ⟨name', value'⟩ := entry
    obtain ⟨hnew, hnames⟩ := List.nodup_cons.mp hnames
    by_cases heq : name = name'
    · subst heq
      have hrest : (name, value) ∉ environment := fun hmem =>
        hnew (List.mem_map.mpr ⟨_, hmem, rfl⟩)
      rw [List.lookup_cons_self, List.mem_cons, or_iff_left hrest, Option.some.injEq,
        Prod.mk.injEq, and_iff_right rfl, eq_comm]
    · have hne : (name, value) ≠ (name', value') := fun h => heq (congrArg Prod.fst h)
      rw [List.lookup_cons, beq_eq_false_iff_ne.mpr heq, List.mem_cons, or_iff_right hne]
      exact ih hnames

/-- The order of variables with different names does not change what is found for a name. -/
theorem lookup_eq_of_perm (hnames : (environment.map Prod.fst).Nodup)
    (h : environment.Perm environment') (name : String) :
    environment.lookup name = environment'.lookup name := by
  have hnames' := (h.map Prod.fst).nodup_iff.mp hnames
  refine Option.ext fun value => ?_
  rw [lookup_eq_some_iff hnames, lookup_eq_some_iff hnames', h.mem_iff]

/-- Variables with different names have the same texts for the keys in any order. -/
theorem sameTexts_of_perm (hnames : (environment.map Prod.fst).Nodup)
    (h : environment.Perm environment') : SameTexts environment environment' where
  nodup_left := hnames
  nodup_right := (h.map Prod.fst).nodup_iff.mp hnames
  lookup_eq _ := lookup_eq_of_perm hnames h _

/-- Two outcomes that are the same, or that both tell of a variable that cannot be read. -/
inductive Alike : Except SettingsError Settings → Except SettingsError Settings → Prop
  | same (outcome : Except SettingsError Settings) : Alike outcome outcome
  | badValues (key value key' value' : String) :
    Alike (.error (.badValue key value)) (.error (.badValue key' value'))

namespace SameTexts

variable (h : SameTexts environment environment')

include h

/-- Settings are overridden and checked alike. -/
theorem finish (s : Settings) : Alike (s.finish environment) (s.finish environment') := by
  obtain ⟨t, ht, ht', -⟩ | ⟨key, value, key', value', herror, herror'⟩ := h.applyOverrides_eq_or s
  · rw [finish_of_eq ht, finish_of_eq ht']
    exact .same _
  · rw [finish_of_error herror, finish_of_error herror']
    exact .badValues key value key' value'

/-- Settings are loaded from a file alike. -/
theorem load (timestamp : String) (file : FileContent) :
    Alike (Settings.load timestamp file environment)
      (Settings.load timestamp file environment') := by
  cases file with
  | missing => exact .same _
  | unreadable => exact .same _
  | text content =>
    simp only [Settings.load, bind, Except.bind]
    cases read timestamp content with
    | error error => exact .same _
    | ok s => exact h.finish s

/-- Settings are loaded alike, also where there is no file. -/
theorem loadOrDefault (timestamp : String) (file : FileContent) :
    Alike (Settings.loadOrDefault timestamp file environment)
      (Settings.loadOrDefault timestamp file environment') := by
  cases file with
  | missing =>
    simp only [Settings.loadOrDefault]
    exact h.finish _
  | unreadable => exact h.load timestamp .unreadable
  | text content => exact h.load timestamp (.text content)

end SameTexts

end Daybook.Settings
