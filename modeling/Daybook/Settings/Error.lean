import Daybook.Settings.Check

/-!
# What can go wrong with settings
-/

namespace Daybook

/-- Why settings could not be read, changed or written. -/
inductive SettingsError where
  /-- Some values are not within their limits. -/
  | invalid (violations : List Settings.Violation)
  /-- The value of a variable cannot be read as the setting it names. -/
  | badValue (key value : String)
  /-- The settings have no section of that name. -/
  | unknownSection (name : String)
  /-- There is no place for the settings of the user. -/
  | noDirectory
  | fileMissing
  /-- The file is no text in UTF-8, or cannot be read or written at all. -/
  | fileFault
  /-- The text is no document, or a value in it has the wrong type. -/
  | malformed
  /-- A value is too large to be written in a document. -/
  | notWritable

/-- The sentence that reports an error, where it has a fixed wording. -/
def SettingsError.message : SettingsError → String
  | .badValue key value =>
    "Invalid configuration value at " ++ key ++ ": Cannot parse '" ++ value ++ "'"
  | .unknownSection name => "Configuration error: Unknown config section: " ++ name
  | .noDirectory => "Configuration error: Cannot determine config directory"
  | .invalid _ => "Configuration validation failed"
  | .fileMissing => "Configuration file not found"
  | .fileFault => "IO error"
  | .malformed => "TOML error"
  | .notWritable => "TOML serialization error"

namespace Settings

/-- Accepts settings whose values all lie within their limits. -/
def validate (s : Settings) : Except SettingsError Unit :=
  if s.isValid then .ok () else .error (.invalid s.violations)

end Settings

end Daybook
