/-!
# Command-line arguments

The arguments of the program select a command. Options may stand at the level of
the program or of any command, and two of them are known at every level. An option
may be given once at each level; the value given at the deepest level counts.
-/

namespace Daybook.Command

/-- An option that a level knows. -/
structure OptionSpec where
  long : String
  short : Option Char
  /-- Whether the option takes a value. -/
  takesValue : Bool
  /-- Whether that value may be empty. -/
  allowsEmpty : Bool := false
  deriving DecidableEq, Repr

/-- The options and the operands of one level. -/
structure Level where
  options : List OptionSpec
  /-- The commands, one of which has to follow. -/
  commands : List String := []
  /-- The number of operands, all of them required. -/
  operands : Nat := 0
  /-- Whether the level tells the version of the program. -/
  tellsVersion : Bool := false
  deriving DecidableEq, Repr

/-- Why no command is run. -/
inductive Stop where
  /-- The arguments are not used as they should be. -/
  | usage
  | version
  | help
  deriving DecidableEq, Repr

/-- What has been read at one level. -/
structure Found where
  /-- The options with their values; a flag has an empty one. -/
  options : List (String × String) := []
  operands : List String := []
  deriving DecidableEq, Repr

namespace Found

/-- The value of an option. -/
def value? (found : Found) (long : String) : Option String :=
  (found.options.find? (·.1 == long)).map (·.2)

/-- Whether a flag is set. -/
def isSet (found : Found) (long : String) : Bool := (found.value? long).isSome

/-- Adds an option that has not been given yet. -/
def add (found : Found) (spec : OptionSpec) (value : String) : Except Stop Found :=
  if found.isSet spec.long then .error .usage
  else if spec.takesValue && !spec.allowsEmpty && value.isEmpty then .error .usage
  else .ok { found with options := found.options ++ [(spec.long, value)] }

end Found

/-- The effect of one argument. -/
inductive Effect where
  | settled (found : Found)
  /-- The next argument is the value of an option. -/
  | wantsValue (spec : OptionSpec) (found : Found)

/-- Reads an argument that begins with two hyphens. -/
def readLong (level : Level) (found : Found) (body : List Char) : Except Stop Effect :=
  let name := String.ofList (body.takeWhile (· != '='))
  let attached :=
    match body.dropWhile (· != '=') with
    | [] => none
    | _ :: value => some (String.ofList value)
  if name == "help" && attached.isNone then .error .help
  else if name == "version" && level.tellsVersion && attached.isNone then .error .version
  else
    match level.options.find? (·.long == name) with
    | none => .error .usage
    | some spec =>
      match spec.takesValue, attached with
      | true, none => .ok (.wantsValue spec found)
      | true, some value => (found.add spec value).map .settled
      | false, none => (found.add spec "").map .settled
      | false, some _ => .error .usage

/-- Reads the letters of an argument that begins with one hyphen. An option with a
value takes what follows its letter, without an equals sign. -/
def readShort (level : Level) (found : Found) : List Char → Except Stop Effect
  | [] => .ok (.settled found)
  | c :: cs =>
    if c == 'h' then .error .help
    else if c == 'V' && level.tellsVersion then .error .version
    else
      match level.options.find? (·.short == some c) with
      | none => .error .usage
      | some spec =>
        if spec.takesValue then
          match cs with
          | [] => .ok (.wantsValue spec found)
          | '=' :: value => (found.add spec (String.ofList value)).map .settled
          | value => (found.add spec (String.ofList value)).map .settled
        else
          match found.add spec "" with
          | .error stop => .error stop
          | .ok found => readShort level found cs

/-- Adds an operand if the level has room for it. -/
def addOperand (level : Level) (found : Found) (operand : String) : Except Stop Found :=
  if found.operands.length < level.operands then
    .ok { found with operands := found.operands ++ [operand] }
  else .error .usage

/-- Whether an argument begins with a hyphen and is not a hyphen alone. -/
def isOption (argument : String) : Bool :=
  match argument.toList with
  | '-' :: _ :: _ => true
  | _ => false

/-- Reads the arguments of a level, up to the command that follows it, if one
does. After two hyphens alone all arguments are operands. -/
def readLevel (level : Level) (found : Found) :
    List String → Except Stop (Found × Option (String × List String))
  | [] => .ok (found, none)
  | argument :: rest =>
    let effect :=
      match argument.toList with
      | '-' :: '-' :: c :: cs => some (readLong level found (c :: cs))
      | '-' :: c :: cs => if c == '-' then none else some (readShort level found (c :: cs))
      | _ => none
    match effect with
    | some (.error stop) => .error stop
    | some (.ok (.settled found)) => readLevel level found rest
    | some (.ok (.wantsValue spec found)) =>
      match rest with
      | [] => .error .usage
      | value :: rest =>
        if isOption value then .error .usage
        else
          match found.add spec value with
          | .error stop => .error stop
          | .ok found => readLevel level found rest
    | none =>
      if argument == "--" then
        (rest.foldlM (addOperand level) found).map fun found => (found, none)
      else if level.commands.contains argument then .ok (found, some (argument, rest))
      else
        match addOperand level found argument with
        | .error stop => .error stop
        | .ok found => readLevel level found rest

/-- Reads a level that no command follows. -/
def readLast (level : Level) (arguments : List String) : Except Stop Found := do
  let (found, _) ← readLevel level {} arguments
  if found.operands.length = level.operands then return found else throw .usage

/-- Reads a level that a command follows. -/
def readOuter (level : Level) (arguments : List String) :
    Except Stop (Found × String × List String) := do
  match ← readLevel level {} arguments with
  | (found, some (command, rest)) => return (found, command, rest)
  | (_, none) => throw .usage

/-- The options that every level knows. -/
def commonOptions : List OptionSpec :=
  [{ long := "config", short := some 'c', takesValue := true },
    { long := "verbose", short := some 'v', takesValue := false }]

/-- The level of the program. -/
def Level.program : Level where
  options := commonOptions
  commands := ["route", "config", "help"]
  tellsVersion := true

/-- The level of the command that routes a query. -/
def Level.route : Level where
  options :=
    commonOptions ++
      [{ long := "json", short := none, takesValue := false },
        { long := "at", short := none, takesValue := true, allowsEmpty := true }]
  operands := 1

/-- The level of the commands about settings. -/
def Level.config : Level where
  options := commonOptions
  commands := ["show", "validate", "init", "path", "help"]

/-- The level of the command that shows settings. -/
def Level.show : Level where
  options :=
    commonOptions ++
      [{ long := "section", short := some 's', takesValue := true, allowsEmpty := true }]

/-- The level of the command that checks settings. -/
def Level.validate : Level where
  options := commonOptions ++ [{ long := "file", short := some 'f', takesValue := true }]

/-- The level of the command that writes default settings. -/
def Level.init : Level where
  options := commonOptions ++ [{ long := "force", short := some 'f', takesValue := false }]

/-- The level of the command that tells where the settings are. -/
def Level.path : Level where
  options := commonOptions

/-- What the program is asked to do. -/
inductive Action where
  /-- Show how a query is routed, as seen from a given time or from now. -/
  | route (query : String) (json : Bool) (time : Option String)
  /-- Show the settings, or one section of them. -/
  | showSettings (name : Option String)
  /-- Check the settings of a file. -/
  | validate (file : Option String)
  /-- Write the default settings. -/
  | init (force : Bool)
  /-- Tell where the settings are. -/
  | path
  deriving DecidableEq, Repr

/-- An action with what holds for all actions. -/
structure Invocation where
  /-- The file of the settings, if it is not the usual one. -/
  configFile : Option String
  verbose : Bool
  action : Action
  deriving DecidableEq, Repr

/-- An action with the common options of the levels at which they were given, the
outermost first. -/
def Invocation.of (levels : List Found) (action : Action) : Invocation where
  configFile := levels.reverse.findSome? (·.value? "config")
  verbose := levels.any (·.isSet "verbose")
  action := action

/-- Whether names lead to a command. -/
def isCommandPath : List String → Bool
  | [] => true
  | [name] => Level.program.commands.contains name
  | ["config", name] => Level.config.commands.contains name
  | _ => false

/-- Why no command is run when the command at a path is to be explained. -/
def Stop.explain (path : List String) : Stop := if isCommandPath path then .help else .usage

/-- The invocation for the arguments of a command about settings. -/
def parseConfig (levels : List Found) (command : String) (arguments : List String) :
    Except Stop Invocation :=
  match command with
  | "show" => do
    let found ← readLast .show arguments
    return .of (levels ++ [found]) (.showSettings (found.value? "section"))
  | "validate" => do
    let found ← readLast .validate arguments
    return .of (levels ++ [found]) (.validate (found.value? "file"))
  | "init" => do
    let found ← readLast .init arguments
    return .of (levels ++ [found]) (.init (found.isSet "force"))
  | "path" => do
    let found ← readLast .path arguments
    return .of (levels ++ [found]) .path
  | "help" => .error (.explain ("config" :: arguments))
  | _ => .error .usage

/-- The invocation for the arguments of the program. -/
def parse (arguments : List String) : Except Stop Invocation := do
  let (program, command, arguments) ← readOuter .program arguments
  match command with
  | "route" =>
    let found ← readLast .route arguments
    let query := found.operands.headD ""
    return .of [program, found] (.route query (found.isSet "json") (found.value? "at"))
  | "config" =>
    let (config, command, arguments) ← readOuter .config arguments
    parseConfig [program, config] command arguments
  | "help" => throw (.explain arguments)
  | _ => throw .usage

end Daybook.Command
