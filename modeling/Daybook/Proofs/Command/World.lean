import Daybook.Command.Run
import Daybook.Proofs.Settings.VariableOrder

/-!
# A world for the program

The program runs in a world of variables, files and a clock. Files are kept by a system of
which only one thing is known: what a write that goes well has written is there. The settings
in use are then a function of the variables, the files and the time.
-/

namespace Daybook.Command

/-- A way to keep files, with what can be done to them; `δ` is what is kept. -/
structure FileSystem (δ : Type) where
  fileAt : String → δ → Settings.FileContent
  /-- Makes a directory and those it lies in; tells whether it is there now. -/
  makeDirectories : String → δ → Bool × δ
  /-- Writes a file; tells whether that went well. -/
  writeFile : String → String → δ → Bool × δ
  fileAt_writeFile : ∀ {path text : String} {disk disk' : δ},
    writeFile path text disk = (true, disk') → fileAt path disk' = .text text

/-- All that the program can see. -/
structure World (δ : Type) where
  environment : List (String × String)
  disk : δ
  /-- The times that the clock shows, one after another. -/
  clock : ℕ → Instant

/-- What the program does in a world; it may end in a failure. -/
abbrev Activity (δ α : Type) : Type := ExceptT Failure (StateM (World δ)) α

variable {δ α β : Type} {world after : World δ}

/-- The result of an activity in a world, and the world after it. -/
def runIn (activity : Activity δ α) (world : World δ) : Except Failure α × World δ :=
  activity.run.run world

/-- Does something to the files. -/
def World.onDisk (act : δ → α × δ) : StateM (World δ) α := fun world =>
  ((act world.disk).1, { world with disk := (act world.disk).2 })

/-- The host of the program in a world. Of two variables with one name, the first one counts. -/
def FileSystem.host (fs : FileSystem δ) : Host (StateM (World δ)) where
  lookup name := do return (← get).environment.lookup name
  fileAt path := do return fs.fileAt path (← get).disk
  makeDirectories path := World.onDisk (fs.makeDirectories path)
  writeFile path text := World.onDisk (fs.writeFile path text)
  now := modifyGet fun world =>
    (world.clock 0, { world with clock := fun reading => world.clock (reading + 1) })

variable {first : Activity δ α} {next : α → Activity δ β}

/-- After a first activity that succeeds, the next one runs in the world that it left. -/
theorem runIn_bind_of_ok {a : α} (h : runIn first world = (.ok a, after)) :
    runIn (first >>= next) world = runIn (next a) after := by
  have hrun : first.run.run world = (.ok a, after) := h
  rw [runIn, ExceptT.run_bind, StateT.run_bind, hrun]
  rfl

/-- A first activity that fails ends the whole run. -/
theorem runIn_bind_of_error {failure : Failure}
    (h : runIn first world = (.error failure, after)) :
    runIn (first >>= next) world = (.error failure, after) := by
  have hrun : first.run.run world = (.error failure, after) := h
  rw [runIn, ExceptT.run_bind, StateT.run_bind, hrun]
  rfl

/-- An activity that goes well has parts that go well. -/
theorem exists_of_runIn_bind {b : β} (h : runIn (first >>= next) world = (.ok b, after)) :
    ∃ a between, runIn first world = (.ok a, between) ∧
      runIn (next a) between = (.ok b, after) := by
  obtain ⟨result, between, hfirst⟩ : ∃ result between, runIn first world = (result, between) :=
    ⟨_, _, rfl⟩
  cases result with
  | error failure =>
    rw [runIn_bind_of_error hfirst] at h
    cases h
  | ok a =>
    rw [runIn_bind_of_ok hfirst] at h
    exact ⟨a, between, hfirst, h⟩

/-- An action of the world cannot fail, so that the next activity always follows. -/
theorem runIn_lift_bind (act : StateM (World δ) α) (next : α → Activity δ β) (world : World δ) :
    runIn ((liftM act : Activity δ α) >>= next) world =
      runIn (next (act.run world).1) (act.run world).2 := rfl

/-- The file of the settings with some variables. -/
def settingsPath? (environment : List (String × String)) (given : Option String) :
    Option String :=
  given.or (usualFile? (environment.lookup "XDG_CONFIG_HOME") (environment.lookup "HOME"))

/-- The variables that override settings. -/
def relevant (environment : List (String × String)) : List (String × String) :=
  OverrideKey.all.filterMap fun key =>
    (environment.lookup key.variableName).map fun value => (key.variableName, value)

namespace FileSystem

variable (fs : FileSystem δ) (world) {given : Option String} {path : String}

/-- The settings in use in a world, or the reason why there are none. -/
def settingsIn (given : Option String) : Except Failure Settings :=
  (runIn (currentSettings fs.host given) world).1

/-- The path of the settings is told by the environment and leaves the world as it is; without a
directory for them it is a failure. -/
theorem runIn_settingsFile (given : Option String) :
    runIn (settingsFile fs.host given) world =
      ((settingsPath? world.environment given).elim (.error (.settings .noDirectory)) .ok,
        world) := by
  cases given with
  | some path => rfl
  | none =>
    have hplace : usualFile? ((fs.host.lookup "XDG_CONFIG_HOME").run world).1
        ((fs.host.lookup "HOME").run ((fs.host.lookup "XDG_CONFIG_HOME").run world).2).1 =
          settingsPath? world.environment none := rfl
    rw [settingsFile, runIn_lift_bind, runIn_lift_bind, hplace]
    cases settingsPath? world.environment none <;> rfl

/-- Each reading of the clock is used up, so that the next reading is another one. -/
theorem runIn_timestamp : runIn (timestamp fs.host) world =
    (.ok (world.clock 0).offsetForm,
      { world with clock := fun reading => world.clock (reading + 1) }) := rfl

/-- The variables that are read are those of the environment that matter, and reading them changes
nothing. -/
theorem runIn_overrides :
    runIn (overrides fs.host) world = (.ok (relevant world.environment), world) := by
  have hrun : runIn (overrides fs.host) world =
      (.ok ((OverrideKey.all.zip
        (OverrideKey.all.map fun key => world.environment.lookup key.variableName)).filterMap
          fun entry => entry.2.map fun value => (entry.1.variableName, value)), world) := rfl
  rw [hrun, relevant, ← List.map_prod_left_eq_zip, List.filterMap_map]
  rfl

/-- Where the path is known, settings are loaded from the file there, with the variables that
matter. -/
theorem settingsIn_of_some (h : settingsPath? world.environment given = some path) :
    fs.settingsIn world given =
      (Settings.loadOrDefault (world.clock 0).offsetForm (fs.fileAt path world.disk)
        (relevant world.environment)).mapError .settings := by
  have hpath := fs.runIn_settingsFile world given
  rw [h] at hpath
  rw [settingsIn, currentSettings, runIn_bind_of_ok hpath, runIn_lift_bind,
    runIn_bind_of_ok (fs.runIn_timestamp _), runIn_bind_of_ok (fs.runIn_overrides _)]
  rfl

/-- Without a path there are no settings to load. -/
theorem settingsIn_of_none (h : settingsPath? world.environment given = none) :
    fs.settingsIn world given = .error (.settings .noDirectory) := by
  have hpath := fs.runIn_settingsFile world given
  rw [h] at hpath
  rw [settingsIn, currentSettings, runIn_bind_of_error hpath]

end FileSystem

end Daybook.Command
