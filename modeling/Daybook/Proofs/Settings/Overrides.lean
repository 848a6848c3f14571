import Daybook.Settings.Override

/-!
# What variables do to settings

Each key has a value in the settings that no other key reads or changes, and the text of a
variable is read without a look at the settings. Variables change the values of keys one by
one and nothing else, up to the first text that cannot be read.
-/

namespace Daybook

open Settings

namespace OverrideKey

/-- What the value of a key is. -/
def Value : OverrideKey → Type
  | maxFutureDays | maxRangeDays | maxQueryLength | maxResults | callTimeoutMs | maxDocLength => Nat
  | minScore => Score
  | enableReranker => Bool

/-- The value that a text says. -/
def read? : (key : OverrideKey) → String → Option key.Value
  | maxFutureDays, text | maxRangeDays, text => readNat? UInt32.size (Text.trim text.toList)
  | maxQueryLength, text | maxResults, text | callTimeoutMs, text | maxDocLength, text =>
    readNat? UInt64.size (Text.trim text.toList)
  | minScore, text => Score.read? (Text.trim text.toList)
  | enableReranker, text => readBool? (Text.trim text.toList)

/-- The value that settings have for a key. -/
def get : (key : OverrideKey) → Settings → key.Value
  | maxFutureDays, s => s.timeRange.maxFutureDays
  | maxRangeDays, s => s.timeRange.maxRangeDays
  | maxQueryLength, s => s.queryLimits.maxQueryLength
  | maxResults, s => s.queryLimits.maxResults
  | minScore, s => s.queryLimits.minScore
  | enableReranker, s => s.retrieval.enableReranker
  | callTimeoutMs, s => s.retrieval.callTimeoutMs
  | maxDocLength, s => s.retrieval.maxDocLength

/-- The settings with another value for a key. -/
def set : (key : OverrideKey) → key.Value → Settings → Settings
  | maxFutureDays, n, s => { s with timeRange.maxFutureDays := n }
  | maxRangeDays, n, s => { s with timeRange.maxRangeDays := n }
  | maxQueryLength, n, s => { s with queryLimits.maxQueryLength := n }
  | maxResults, n, s => { s with queryLimits.maxResults := n }
  | minScore, x, s => { s with queryLimits.minScore := x }
  | enableReranker, b, s => { s with retrieval.enableReranker := b }
  | callTimeoutMs, n, s => { s with retrieval.callTimeoutMs := n }
  | maxDocLength, n, s => { s with retrieval.maxDocLength := n }

variable {key other : OverrideKey}

/-- A key has the value that it is set to. -/
@[simp] theorem get_set (key : OverrideKey) (v : key.Value) (s : Settings) :
    key.get (key.set v s) = v := by
  cases key <;> rfl

/-- Setting one key leaves the values of the others. -/
theorem get_set_of_ne (h : other ≠ key) (v : key.Value) (s : Settings) :
    other.get (key.set v s) = other.get s := by
  cases key <;> cases other <;> try rfl
  all_goals exact absurd rfl h

/-- A variable is read, and its value is put in place. -/
theorem override?_eq (s : Settings) (key : OverrideKey) (text : String) :
    s.override? key text = (key.read? text).map fun v => key.set v s := by
  cases key <;> rfl

/-- A key is found under the name of its variable. -/
theorem ofVariable?_variableName (key : OverrideKey) :
    ofVariable? key.variableName = some key := by
  cases key <;> decide +kernel

/-- A key that is found under a name has that name. -/
theorem variableName_eq {name : String} (h : ofVariable? name = some key) :
    key.variableName = name := by
  simpa using List.find?_some h

/-- Different keys have different variables. -/
theorem variableName_injective : Function.Injective variableName := by
  intro key other h
  have hkey := ofVariable?_variableName key
  rw [h, ofVariable?_variableName] at hkey
  exact (Option.some.inj hkey).symm

end OverrideKey

namespace Settings

variable {s t u : Settings} {environment : List (String × String)}
  {key : OverrideKey} {name value : String}

/-- Settings that have other values for keys at most. -/
structure AgreesBeyondKeys (s t : Settings) : Prop where
  about : t.about = s.about
  defaultLimit : t.queryLimits.defaultLimit = s.queryLimits.defaultLimit
  vectorLimit : t.retrieval.vectorLimit = s.retrieval.vectorLimit
  hybridLimit : t.retrieval.hybridLimit = s.retrieval.hybridLimit
  expandLimit : t.retrieval.expandLimit = s.retrieval.expandLimit
  maxDescriptionLength : t.retrieval.maxDescriptionLength = s.retrieval.maxDescriptionLength
  scoring : t.scoring = s.scoring
  lexicon : t.lexicon = s.lexicon

/-- Settings agree with themselves beyond the keys. -/
theorem agreesBeyondKeys_refl (s : Settings) : s.AgreesBeyondKeys s :=
  ⟨rfl, rfl, rfl, rfl, rfl, rfl, rfl, rfl⟩

/-- Agreement beyond the keys is passed on from change to change. -/
theorem AgreesBeyondKeys.trans (h : s.AgreesBeyondKeys t) (h' : t.AgreesBeyondKeys u) :
    s.AgreesBeyondKeys u where
  about := h'.about.trans h.about
  defaultLimit := h'.defaultLimit.trans h.defaultLimit
  vectorLimit := h'.vectorLimit.trans h.vectorLimit
  hybridLimit := h'.hybridLimit.trans h.hybridLimit
  expandLimit := h'.expandLimit.trans h.expandLimit
  maxDescriptionLength := h'.maxDescriptionLength.trans h.maxDescriptionLength
  scoring := h'.scoring.trans h.scoring
  lexicon := h'.lexicon.trans h.lexicon

/-- Setting a key changes nothing beyond the keys. -/
theorem agreesBeyondKeys_set (key : OverrideKey) (v : key.Value) (s : Settings) :
    s.AgreesBeyondKeys (key.set v s) := by
  cases key <;> exact ⟨rfl, rfl, rfl, rfl, rfl, rfl, rfl, rfl⟩

/-- Settings are known from the values for the keys and from all that no key changes. -/
theorem AgreesBeyondKeys.eq (h : s.AgreesBeyondKeys t) (h' : s.AgreesBeyondKeys u)
    (hkeys : ∀ key : OverrideKey, key.get t = key.get u) : t = u := by
  obtain ⟨about, ⟨future, range⟩, ⟨length, results, score, limit⟩,
    ⟨vector, hybrid, expand, reranker, doc, description, timeout⟩, scoring, lexicon⟩ := t
  obtain ⟨about', ⟨future', range'⟩, ⟨length', results', score', limit'⟩,
    ⟨vector', hybrid', expand', reranker', doc', description', timeout'⟩, scoring', lexicon'⟩ := u
  obtain rfl : about = about' := h.about.trans h'.about.symm
  obtain rfl : limit = limit' := h.defaultLimit.trans h'.defaultLimit.symm
  obtain rfl : vector = vector' := h.vectorLimit.trans h'.vectorLimit.symm
  obtain rfl : hybrid = hybrid' := h.hybridLimit.trans h'.hybridLimit.symm
  obtain rfl : expand = expand' := h.expandLimit.trans h'.expandLimit.symm
  obtain rfl : description = description' :=
    h.maxDescriptionLength.trans h'.maxDescriptionLength.symm
  obtain rfl : scoring = scoring' := h.scoring.trans h'.scoring.symm
  obtain rfl : lexicon = lexicon' := h.lexicon.trans h'.lexicon.symm
  obtain rfl : future = future' := hkeys .maxFutureDays
  obtain rfl : range = range' := hkeys .maxRangeDays
  obtain rfl : length = length' := hkeys .maxQueryLength
  obtain rfl : results = results' := hkeys .maxResults
  obtain rfl : score = score' := hkeys .minScore
  obtain rfl : reranker = reranker' := hkeys .enableReranker
  obtain rfl : timeout = timeout' := hkeys .callTimeoutMs
  obtain rfl : doc = doc' := hkeys .maxDocLength
  rfl

/-- A variable that belongs to no key is passed over. -/
theorem applyOverrides_cons_of_none (hname : OverrideKey.ofVariable? name = none) :
    s.applyOverrides ((name, value) :: environment) = s.applyOverrides environment := by
  rw [applyOverrides, hname]

/-- A variable of a key sets it to the value that its text is read as. -/
theorem applyOverrides_cons_of_read (hname : OverrideKey.ofVariable? name = some key)
    {v : key.Value} (hread : key.read? value = some v) :
    s.applyOverrides ((name, value) :: environment) =
      (key.set v s).applyOverrides environment := by
  rw [applyOverrides, hname]
  simp only [OverrideKey.override?_eq, hread, Option.map_some]

/-- A text that cannot be read as a value of its key ends the overriding with an error. -/
theorem applyOverrides_cons_of_unreadable (hname : OverrideKey.ofVariable? name = some key)
    (hread : key.read? value = none) :
    s.applyOverrides ((name, value) :: environment) =
      (s, some (.badValue key.name value)) := by
  rw [applyOverrides, hname]
  simp only [OverrideKey.override?_eq, hread, Option.map_none]

/-- Variables are applied one by one: one that is no key is passed over, one that cannot be read
is the last, and after another one the rest is applied to the settings with its value. -/
theorem variables_induction {motive : Settings → List (String × String) → Prop}
    (nil : ∀ s, motive s [])
    (other : ∀ s name value environment, OverrideKey.ofVariable? name = none →
      motive s environment → motive s ((name, value) :: environment))
    (unreadable : ∀ s name value environment key, OverrideKey.ofVariable? name = some key →
      key.read? value = none → motive s ((name, value) :: environment))
    (read : ∀ s name value environment key v, OverrideKey.ofVariable? name = some key →
      key.read? value = some v → motive (key.set v s) environment →
        motive s ((name, value) :: environment))
    (s : Settings) (environment : List (String × String)) : motive s environment := by
  induction environment generalizing s with
  | nil => exact nil s
  | cons entry environment ih =>
    obtain ⟨name, value⟩ := entry
    cases hname : OverrideKey.ofVariable? name with
    | none => exact other s name value environment hname (ih s)
    | some key =>
      cases hread : key.read? value with
      | none => exact unreadable s name value environment key hname hread
      | some v => exact read s name value environment key v hname hread (ih _)

/-- Variables change nothing but values for keys. -/
theorem agreesBeyondKeys_applyOverrides (s : Settings) (environment : List (String × String)) :
    s.AgreesBeyondKeys (s.applyOverrides environment).1 := by
  induction s, environment using variables_induction with
  | nil s => exact agreesBeyondKeys_refl s
  | other s name value environment hname ih =>
    rw [applyOverrides_cons_of_none hname]
    exact ih
  | unreadable s name value environment key hname hread =>
    rw [applyOverrides_cons_of_unreadable hname hread]
    exact agreesBeyondKeys_refl s
  | read s name value environment key v hname hread ih =>
    rw [applyOverrides_cons_of_read hname hread]
    exact (agreesBeyondKeys_set key v s).trans ih

/-- An error is that of a variable that cannot be read. The settings are then those after the
variables before it. -/
theorem exists_before_error {error : SettingsError}
    (h : (s.applyOverrides environment).2 = some error) :
    ∃ before name value after key, environment = before ++ (name, value) :: after ∧
      s.applyOverrides before = ((s.applyOverrides environment).1, none) ∧
      OverrideKey.ofVariable? name = some key ∧ key.read? value = none ∧
      error = .badValue key.name value := by
  induction s, environment using variables_induction with
  | nil s => cases h
  | other s name value environment hname ih =>
    rw [applyOverrides_cons_of_none hname] at h ⊢
    obtain ⟨before, name', value', after, key, rfl, hbefore, hkey⟩ := ih h
    refine ⟨(name, value) :: before, name', value', after, key, rfl, ?_, hkey⟩
    rw [applyOverrides_cons_of_none hname, hbefore]
  | unreadable s name value environment key hname hread =>
    rw [applyOverrides_cons_of_unreadable hname hread] at h ⊢
    exact ⟨[], name, value, environment, key, rfl, rfl, hname, hread, (Option.some.inj h).symm⟩
  | read s name value environment key v hname hread ih =>
    rw [applyOverrides_cons_of_read hname hread] at h ⊢
    obtain ⟨before, name', value', after, key', rfl, hbefore, hkey⟩ := ih h
    refine ⟨(name, value) :: before, name', value', after, key', rfl, ?_, hkey⟩
    rw [applyOverrides_cons_of_read hname hread, hbefore]

/-- Settings that meet an error among their variables are not checked any more. -/
theorem finish_of_error {error : SettingsError}
    (h : (s.applyOverrides environment).2 = some error) :
    s.finish environment = .error error := by
  obtain ⟨t, failure, heq⟩ : ∃ t failure, s.applyOverrides environment = (t, failure) :=
    ⟨_, _, rfl⟩
  obtain rfl : failure = some error := by rw [← h, heq]
  rw [finish, heq]

/-- Otherwise the settings with the overridden values are checked. -/
theorem finish_of_eq (h : s.applyOverrides environment = (t, none)) :
    s.finish environment = t.validate.map fun _ => t := by
  rw [finish, h]

end Settings

end Daybook
