import Daybook.Proofs.Settings.Overrides
import Daybook.Proofs.Settings.RoundTrip
import Daybook.Settings.Shared

/-!
# The dates in settings

Settings say when they were made and changed. Nothing that is done to settings reads these
dates, so that other dates make no other difference.
-/

namespace Daybook.Settings

variable {made : String}

/-- The settings as if they had been made and changed at another time. -/
def redate (made : String) (s : Settings) : Settings :=
  { s with about := { s.about with createdAt := made, lastModified := made } }

/-- Two default settings differ in their dates only. -/
theorem default_eq_redate (made start : String) :
    Settings.default made = (Settings.default start).redate made := rfl

/-- Setting the value of a key leaves the dates. -/
theorem set_redate (key : OverrideKey) (v : key.Value) (s : Settings) :
    key.set v (s.redate made) = (key.set v s).redate made := by
  cases key <;> rfl

/-- Variables do the same to settings with other dates. -/
theorem applyOverrides_redate (made : String) (s : Settings)
    (environment : List (String × String)) :
    (s.redate made).applyOverrides environment =
      ((s.applyOverrides environment).1.redate made, (s.applyOverrides environment).2) := by
  induction s, environment using variables_induction with
  | nil s => rfl
  | other s name value environment hname ih =>
    rw [applyOverrides_cons_of_none hname, applyOverrides_cons_of_none hname]
    exact ih
  | unreadable s name value environment key hname hread =>
    rw [applyOverrides_cons_of_unreadable hname hread,
      applyOverrides_cons_of_unreadable hname hread]
  | read s name value environment key v hname hread ih =>
    rw [applyOverrides_cons_of_read hname hread, applyOverrides_cons_of_read hname hread,
      set_redate]
    exact ih

/-- The checks do not look at the dates. -/
theorem validate_redate (s : Settings) : (s.redate made).validate = s.validate := rfl

/-- Variables and checks do the same to settings with other dates. -/
theorem finish_redate (s : Settings) (environment : List (String × String)) :
    (s.redate made).finish environment = (s.finish environment).map (redate made) := by
  have hredate := applyOverrides_redate made s environment
  obtain ⟨t, error, h⟩ : ∃ t error, s.applyOverrides environment = (t, error) := ⟨_, _, rfl⟩
  rw [h] at hredate
  cases error with
  | some error =>
    rw [finish_of_error (congrArg Prod.snd h), finish_of_error (congrArg Prod.snd hredate)]
    rfl
  | none =>
    rw [finish_of_eq h, finish_of_eq hredate, validate_redate]
    cases t.validate <;> rfl

/-- The default settings are written as a document that gives them back. -/
theorem exists_write_default (made : String) : ∃ text, (Settings.default made).write = .ok text ∧
    ∀ timestamp, read timestamp text = .ok (Settings.default made) := by
  have hsmall : (Settings.default made).IsSmall := by
    constructor <;> simp [Settings.default]
  have hfits := fits_of_isValid (SharedSettings.isValid_default made) hsmall
  exact ⟨_, write_of_fits hfits, fun timestamp => read_document timestamp hfits⟩

/-- What is loaded from the document of the default settings is what is loaded without a
document, up to the dates. -/
theorem load_default {text : String} (h : (Settings.default made).write = .ok text)
    (start later : String) (environment : List (String × String)) :
    loadOrDefault later (.text text) environment =
      (loadOrDefault start .missing environment).map (redate made) := by
  obtain ⟨document, hwrite, hread⟩ := exists_write_default made
  obtain rfl : document = text := Except.ok.inj (hwrite.symm.trans h)
  simp only [loadOrDefault, load, hread, default_eq_redate made start]
  exact finish_redate (Settings.default start) environment

end Daybook.Settings
