import Daybook.Settings.Error

/-!
# Shared settings

The settings that a running program uses. They can be replaced at any time, and
only by settings whose values all lie within their limits; whoever has taken a
snapshot keeps it.
-/

namespace Daybook

/-- Settings in use. -/
structure SharedSettings where
  /-- The settings in use now. -/
  snapshot : Settings
  isValid : snapshot.isValid = true

namespace SharedSettings

/-- Takes settings into use if they are valid. -/
def make? (s : Settings) : Except SettingsError SharedSettings :=
  if h : s.isValid = true then .ok ⟨s, h⟩ else .error (.invalid s.violations)

/-- Replaces the settings in use. If the new ones are not valid, the old ones
stay. -/
def update (shared : SharedSettings) (s : Settings) : SharedSettings × Option SettingsError :=
  if h : s.isValid = true then (⟨s, h⟩, none) else (shared, some (.invalid s.violations))

/-- The default settings are valid. -/
theorem isValid_default (timestamp : String) : (Settings.default timestamp).isValid = true := by
  simp [Settings.isValid, Settings.violations_default]

/-- The default settings in use. -/
def default (timestamp : String) : SharedSettings :=
  ⟨Settings.default timestamp, isValid_default timestamp⟩

end SharedSettings

end Daybook
