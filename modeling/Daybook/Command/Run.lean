import Daybook.Command.Arguments
import Daybook.Command.Report
import Daybook.Routing.Router

/-!
# Running the program

An action reads its settings, does its work and ends with a report. What it needs
of the world is given by a host: variables, files and the clock.
-/

namespace Daybook.Command

/-- The world around the program. -/
structure Host (m : Type → Type) where
  /-- The value of a variable of the environment. -/
  lookup : String → m (Option String)
  fileAt : String → m Settings.FileContent
  /-- Makes a directory and those it lies in; tells whether it is there now. -/
  makeDirectories : String → m Bool
  /-- Writes a file; tells whether that went well. -/
  writeFile : String → String → m Bool
  now : m Instant

/-- Why an action fails. -/
inductive Failure where
  | settings (error : SettingsError)
  /-- The reference time is no RFC 3339 timestamp. -/
  | badTimestamp (text : String)
  | fault (fault : Fault)

/-- The sentence that reports a failure. -/
def Failure.message : Failure → String
  | .settings error => error.message
  | .badTimestamp text =>
    "Invalid timestamp '" ++ text ++ "' (expected RFC 3339, e.g. 2025-01-15T10:30:00Z)"
  | .fault _ => "time outside the calendar"

/-- How a run of the program ends. -/
structure Report where
  /-- The exit code. -/
  code : UInt8 := 0
  /-- What is printed. -/
  output : String := ""
  failure : Option Failure := none

/-- The report of lines that are printed. -/
def Report.ofLines (lines : List String) : Report :=
  { output := String.join (lines.map (· ++ "\n")) }

/-- The exit code for a failure; a fault is not handled by the program. -/
def Failure.code : Failure → UInt8
  | .fault _ => 101
  | _ => 1

/-- The report of a result: its lines, or its failure. -/
def Report.ofResult : Except Failure (List String) → Report
  | .ok lines => .ofLines lines
  | .error failure => { code := failure.code, failure := some failure }

/-- A path with another one below it. -/
def joinPath (directory path : String) : String :=
  if directory.endsWith "/" then directory ++ path else directory ++ "/" ++ path

/-- The path without slashes at its end; a root stays. -/
def dropSlashes (path : List Char) : List Char :=
  let kept := (path.reverse.dropWhile (· == '/')).reverse
  if kept.isEmpty then path.take 1 else kept

/-- The directory in which a path lies; empty for a bare name, none for a root. -/
def parent? (path : String) : Option String :=
  let cs := dropSlashes path.toList
  let front := (cs.reverse.dropWhile (· != '/')).reverse
  if cs == ['/'] || cs.isEmpty then none else some (String.ofList (dropSlashes front))

/-- The file of the user's settings, below the directory for settings or else below
the home directory. -/
def usualFile? (settingsHome home : Option String) : Option String :=
  match settingsHome.filter (·.startsWith "/") with
  | some directory => some (joinPath directory "recall/config.toml")
  | none => (home.filter (!·.isEmpty)).map fun home => joinPath home ".config/recall/config.toml"

section

variable {m : Type → Type} [Monad m]

/-- The file of the settings: the given one, or the usual one. -/
def settingsFile (host : Host m) (given : Option String) : ExceptT Failure m String := do
  match given with
  | some path => return path
  | none =>
    match usualFile? (← host.lookup "XDG_CONFIG_HOME") (← host.lookup "HOME") with
    | some path => return path
    | none => throw (.settings .noDirectory)

/-- The variables of the environment that override settings. -/
def overrides (host : Host m) : ExceptT Failure m (List (String × String)) := do
  let values ← OverrideKey.all.mapM fun key => host.lookup key.variableName
  return (OverrideKey.all.zip values).filterMap fun (key, value) =>
    value.map fun value => (key.variableName, value)

/-- The time at which settings are made. -/
def timestamp (host : Host m) : ExceptT Failure m String := return (← host.now).offsetForm

/-- A result that may fail for the sake of the settings. -/
def ofSettings {α : Type} (result : Except SettingsError α) : ExceptT Failure m α :=
  ExceptT.mk (pure (result.mapError .settings))

/-- The settings in use: those of the file, or the default ones if there is none. -/
def currentSettings (host : Host m) (given : Option String) : ExceptT Failure m Settings := do
  let path ← settingsFile host given
  let file ← host.fileAt path
  ofSettings (Settings.loadOrDefault (← timestamp host) file (← overrides host))

/-- The reference time: the given one, or now. -/
def referenceTime (host : Host m) (given : Option String) : ExceptT Failure m Instant := do
  match given with
  | none => host.now
  | some text =>
    match Timestamp.read? text.toList with
    | some time => return time
    | none => throw (.badTimestamp text)

/-- Shows how a query is routed. -/
def route (host : Host m) (configFile : Option String) (query : String) (json : Bool)
    (time : Option String) : ExceptT Failure m (List String) := do
  let settings ← currentSettings host configFile
  let now ← referenceTime host time
  match (Router.ofLexicon settings.lexicon).route query now with
  | .error fault => throw (.fault fault)
  | .ok decision => return if json then [decision.toJson.pretty] else decision.listing

/-- Shows the settings. -/
def showSettings (host : Host m) (configFile name : Option String) :
    ExceptT Failure m (List String) := do
  let settings ← currentSettings host configFile
  let json ← ofSettings (settings.toJson name)
  return [json.pretty]

/-- Checks the settings of a file. -/
def validate (host : Host m) (configFile file : Option String) :
    ExceptT Failure m (List String) := do
  let path ← settingsFile host (file.or configFile)
  let content ← host.fileAt path
  let settings ← ofSettings (Settings.load (← timestamp host) content (← overrides host))
  return ["✓ Configuration is valid", "  Schema version: " ++ settings.about.schemaVersion]

/-- Makes the directory in which a file lies. -/
def makeParent (host : Host m) (path : String) : ExceptT Failure m Unit := do
  if let some directory := parent? path then
    unless ← host.makeDirectories directory do throw (.settings .fileFault)

/-- Writes settings to a file. -/
def save (host : Host m) (settings : Settings) (path : String) : ExceptT Failure m Unit := do
  let text ← ofSettings settings.write
  unless ← host.writeFile path text do throw (.settings .fileFault)

/-- Writes the default settings, unless there are settings already. -/
def init (host : Host m) (configFile : Option String) (force : Bool) :
    ExceptT Failure m (List String) := do
  let path ← settingsFile host configFile
  let isThere :=
    match ← host.fileAt path with
    | .missing => false
    | _ => true
  if isThere && !force then
    return ["Configuration file already exists at: " ++ path, "Use --force to overwrite"]
  else
    makeParent host path
    save host (Settings.default (← timestamp host)) path
    return ["✓ Configuration initialized at: " ++ path]

/-- Performs an action and gives the lines to print. -/
def perform (host : Host m) (invocation : Invocation) : ExceptT Failure m (List String) :=
  let configFile := invocation.configFile
  match invocation.action with
  | .route query json time => route host configFile query json time
  | .showSettings name => showSettings host configFile name
  | .validate file => validate host configFile file
  | .init force => init host configFile force
  | .path => do return [← settingsFile host configFile]

/-- The name and the version of the program. -/
def versionLine : String := "recall 0.1.0"

/-- Runs the program on its arguments. -/
def run (host : Host m) (arguments : List String) : m Report := do
  match parse arguments with
  | .error .usage => return { code := 2 }
  | .error .version => return .ofLines [versionLine]
  | .error .help => return {}
  | .ok invocation => return .ofResult (← (perform host invocation).run)

end

end Daybook.Command
