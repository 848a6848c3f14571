import Daybook.Proofs.Command.World

/-!
# The variables of the program

The program looks its variables up by their names, one key after another. This makes the
settings that all variables make together, in whatever order they come.
-/

namespace Daybook.Command

open Settings

variable {environment environment' : List (String × String)}

/-- The variables that are read are those with the name of a key, each with the value that the
environment has for it. -/
theorem mem_relevant_iff {name value : String} : (name, value) ∈ relevant environment ↔
    ∃ key : OverrideKey, key.variableName = name ∧ environment.lookup name = some value := by
  simp only [relevant, List.mem_filterMap, Option.map_eq_some_iff, Prod.mk.injEq]
  constructor
  · rintro ⟨key, -, _, hvalue, rfl, rfl⟩
    exact ⟨key, rfl, hvalue⟩
  · rintro ⟨key, rfl, hvalue⟩
    exact ⟨key, by cases key <;> decide, value, hvalue, rfl, rfl⟩

/-- No variable is read twice. -/
theorem relevant_nodup (environment : List (String × String)) :
    ((relevant environment).map Prod.fst).Nodup := by
  have hkeys : OverrideKey.all.Nodup := by decide
  refine List.pairwise_map.mpr (List.pairwise_filterMap.mpr (hkeys.imp ?_))
  intro key key' hne entry hentry entry' hentry' heq
  obtain ⟨_, -, rfl⟩ := Option.map_eq_some_iff.mp hentry
  obtain ⟨_, -, rfl⟩ := Option.map_eq_some_iff.mp hentry'
  exact hne (OverrideKey.variableName_injective heq)

/-- The variables that are read give a key the same value as the whole environment. -/
theorem lookup_relevant (environment : List (String × String)) (key : OverrideKey) :
    (relevant environment).lookup key.variableName = environment.lookup key.variableName := by
  refine Option.ext fun value => ?_
  rw [lookup_eq_some_iff (relevant_nodup environment), mem_relevant_iff]
  exact ⟨fun ⟨_, _, hvalue⟩ => hvalue, fun hvalue => ⟨key, rfl, hvalue⟩⟩

/-- Between the variables that are read and an environment with distinct names, no key sees a
difference. -/
theorem sameTexts_relevant (hnames : (environment.map Prod.fst).Nodup) :
    SameTexts (relevant environment) environment where
  nodup_left := relevant_nodup environment
  nodup_right := hnames
  lookup_eq := lookup_relevant environment

/-- The order of an environment with distinct names does not change what is read of it. -/
theorem relevant_eq_of_perm (hnames : (environment.map Prod.fst).Nodup)
    (h : environment.Perm environment') : relevant environment = relevant environment' := by
  simp only [relevant, lookup_eq_of_perm hnames h]

/-- The order of an environment with distinct names does not change where the settings are looked
for. -/
theorem settingsPath?_eq_of_perm (hnames : (environment.map Prod.fst).Nodup)
    (h : environment.Perm environment') (given : Option String) :
    settingsPath? environment given = settingsPath? environment' given := by
  simp only [settingsPath?, lookup_eq_of_perm hnames h]

namespace FileSystem

variable {δ : Type} (fs : FileSystem δ) (disk : δ) (clock : ℕ → Instant) (given : Option String)

/-- All in all, settings are loaded alike from an environment with distinct names in any order. -/
theorem settingsIn_eq_of_perm (hnames : (environment.map Prod.fst).Nodup)
    (h : environment.Perm environment') :
    fs.settingsIn ⟨environment, disk, clock⟩ given =
      fs.settingsIn ⟨environment', disk, clock⟩ given := by
  have hpath := settingsPath?_eq_of_perm hnames h given
  cases hgiven : settingsPath? environment given with
  | none =>
    rw [fs.settingsIn_of_none _ hgiven, fs.settingsIn_of_none _ (hpath.symm.trans hgiven)]
  | some path =>
    rw [fs.settingsIn_of_some _ hgiven, fs.settingsIn_of_some _ (hpath.symm.trans hgiven),
      relevant_eq_of_perm hnames h]

/-- The settings in use are those that all variables make of the file. -/
theorem settingsIn_alike (hnames : (environment.map Prod.fst).Nodup) {path : String}
    (hpath : settingsPath? environment given = some path) :
    ∃ outcome, fs.settingsIn ⟨environment, disk, clock⟩ given = outcome.mapError .settings ∧
      Alike outcome (loadOrDefault (clock 0).offsetForm (fs.fileAt path disk) environment) :=
  ⟨_, fs.settingsIn_of_some _ hpath, (sameTexts_relevant hnames).loadOrDefault _ _⟩

end FileSystem

/-- Variables change nothing in settings but values for keys. After an error the settings are
those that the variables before it make. Variables with different names make the same settings
in every order, or meet an error in every order; so a file, or the default in its place, gives
the same settings or the same kind of error in every order, and so does the program. -/
theorem settings_of_perm (s : Settings) (environment : List (String × String)) :
    s.AgreesBeyondKeys (s.applyOverrides environment).1 ∧
    (∀ error, (s.applyOverrides environment).2 = some error →
      ∃ before name value after key, environment = before ++ (name, value) :: after ∧
        s.applyOverrides before = ((s.applyOverrides environment).1, none) ∧
        OverrideKey.ofVariable? name = some key ∧ key.read? value = none ∧
        error = .badValue key.name value) ∧
    ∀ environment', (environment.map Prod.fst).Nodup → environment.Perm environment' →
      ((∃ t, s.applyOverrides environment = (t, none) ∧
          s.applyOverrides environment' = (t, none) ∧ s.Reflects environment t) ∨
        ∃ error error', (s.applyOverrides environment).2 = some error ∧
          (s.applyOverrides environment').2 = some error') ∧
      (∀ timestamp file,
        Alike (load timestamp file environment) (load timestamp file environment') ∧
        Alike (loadOrDefault timestamp file environment)
          (loadOrDefault timestamp file environment')) ∧
      ∀ (δ : Type) (fs : FileSystem δ) (disk : δ) (clock : ℕ → Instant) (given : Option String),
        fs.settingsIn ⟨environment, disk, clock⟩ given =
          fs.settingsIn ⟨environment', disk, clock⟩ given ∧
        ∀ path, settingsPath? environment given = some path → ∃ outcome,
          fs.settingsIn ⟨environment, disk, clock⟩ given = outcome.mapError .settings ∧
          Alike outcome
            (loadOrDefault (clock 0).offsetForm (fs.fileAt path disk) environment) := by
  refine ⟨agreesBeyondKeys_applyOverrides s environment, fun error => exists_before_error, ?_⟩
  intro environment' hnames hperm
  have hsame := sameTexts_of_perm hnames hperm
  refine ⟨?_, fun timestamp file =>
    ⟨hsame.load timestamp file, hsame.loadOrDefault timestamp file⟩, ?_⟩
  · obtain hsettings | ⟨_, _, _, _, herror, herror'⟩ := hsame.applyOverrides_eq_or s
    · exact .inl hsettings
    · exact .inr ⟨_, _, herror, herror'⟩
  · intro δ fs disk clock given
    exact ⟨fs.settingsIn_eq_of_perm disk clock given hnames hperm,
      fun path => fs.settingsIn_alike disk clock given hnames⟩

/-- One of three variables cannot be read. In either order there is an error, but only in the
first one has the number of results been changed before. -/
theorem settings_of_perm_reversed :
    let s := Settings.default ""
    let environment := [("RECALL_QUERY_LIMITS__MAX_RESULTS", " 7 "), ("PATH", "/bin"),
      ("RECALL_RETRIEVAL__ENABLE_RERANKER", "maybe")]
    ((environment.map Prod.fst).Nodup ∧ environment.Perm environment.reverse) ∧
      (s.applyOverrides environment).1.queryLimits.maxResults = 7 ∧
      (s.applyOverrides environment.reverse).1.queryLimits.maxResults = 20 ∧
      ∃ error error', (s.applyOverrides environment).2 = some error ∧
        (s.applyOverrides environment.reverse).2 = some error' := by
  intro s environment
  have hnames : (environment.map Prod.fst).Nodup := by decide
  have hperm : environment.Perm environment.reverse := environment.reverse_perm.symm
  refine ⟨⟨hnames, hperm⟩, by decide +kernel, by decide +kernel, ?_⟩
  refine ((settings_of_perm s environment).2.2 _ hnames hperm).1.resolve_left ?_
  rintro ⟨t, ht, -⟩
  have hnone : (s.applyOverrides environment).2.isNone = true := by rw [ht]; rfl
  revert hnone
  decide +kernel

end Daybook.Command
