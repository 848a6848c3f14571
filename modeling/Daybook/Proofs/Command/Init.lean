import Daybook.Proofs.Command.World
import Daybook.Proofs.Settings.Dates

/-!
# Writing the default settings

The program can write its default settings to a file. The file then holds what the program
would use without it, so that it makes no difference but to the dates in the settings: with
the same variables there are the same settings, or the same error.
-/

namespace Daybook.Command

open Settings

variable {δ : Type} {world after : World δ}

namespace FileSystem

variable (fs : FileSystem δ) {s : Settings} {given : Option String} {path text : String}

/-- Making the directory of a file succeeds if the directory can be made, and changes at most the
disk. -/
theorem runIn_makeParent (world : World δ)
    (h : ∀ directory, parent? path = some directory →
      (fs.makeDirectories directory world.disk).1 = true) :
    ∃ disk, runIn (makeParent fs.host path) world = (.ok (), { world with disk }) := by
  cases hparent : parent? path with
  | none =>
    refine ⟨world.disk, ?_⟩
    rw [makeParent, hparent]
    rfl
  | some directory =>
    refine ⟨(fs.makeDirectories directory world.disk).2, ?_⟩
    have hrun : runIn (makeParent fs.host path) world =
        runIn (if (fs.makeDirectories directory world.disk).1 = true then pure ()
          else throw (.settings .fileFault))
          { world with disk := (fs.makeDirectories directory world.disk).2 } := by
      rw [makeParent, hparent]
      rfl
    rw [hrun, if_pos (h directory hparent)]
    rfl

/-- Settings that can be written are handed to the file system, which decides about success. -/
theorem runIn_save (world : World δ) (hwrite : s.write = .ok text) :
    runIn (save fs.host s path) world =
      runIn (if (fs.writeFile path text world.disk).1 = true then pure ()
        else throw (.settings .fileFault))
        { world with disk := (fs.writeFile path text world.disk).2 } := by
  rw [save, hwrite]
  rfl

/-- Saving succeeds if the settings can be written and the file system writes the file. -/
theorem runIn_save_of_written (world : World δ) (hwrite : s.write = .ok text)
    (hwritten : (fs.writeFile path text world.disk).1 = true) :
    runIn (save fs.host s path) world =
      (.ok (), { world with disk := (fs.writeFile path text world.disk).2 }) := by
  rw [fs.runIn_save world hwrite, if_pos hwritten]
  rfl

/-- Settings that cannot be written are not saved, and leave the world as it was. -/
theorem runIn_save_of_error (world : World δ) {error : SettingsError}
    (hwrite : s.write = .error error) :
    runIn (save fs.host s path) world = (.error (.settings error), world) := by
  rw [save, hwrite]
  rfl

/-- Settings that are saved well are in the file. -/
theorem exists_text_of_save (h : runIn (save fs.host s path) world = (.ok (), after)) :
    ∃ text, s.write = .ok text ∧ fs.fileAt path after.disk = .text text := by
  cases hwrite : s.write with
  | error error =>
    rw [fs.runIn_save_of_error world hwrite] at h
    cases h
  | ok text =>
    rw [fs.runIn_save world hwrite] at h
    by_cases hwritten : (fs.writeFile path text world.disk).1 = true
    · rw [if_pos hwritten] at h
      obtain rfl := congrArg Prod.snd h
      exact ⟨text, rfl, fs.fileAt_writeFile (Prod.ext hwritten rfl)⟩
    · rw [if_neg hwritten] at h
      cases h

/-- When the program says that it has written the default settings, they are in the file. -/
theorem exists_text_of_init {force : Bool}
    (h : runIn (init fs.host given force) world =
      (.ok ["✓ Configuration initialized at: " ++ path], after)) :
    ∃ made text, (Settings.default made).write = .ok text ∧
      fs.fileAt path after.disk = .text text := by
  rw [init] at h
  obtain ⟨place, _, -, h⟩ := exists_of_runIn_bind h
  rw [runIn_lift_bind] at h
  dsimp only at h
  split_ifs at h with hthere
  · cases h
  · obtain ⟨_, _, -, h⟩ := exists_of_runIn_bind h
    obtain ⟨made, _, -, h⟩ := exists_of_runIn_bind h
    obtain ⟨_, between, hsave, h⟩ := exists_of_runIn_bind h
    obtain rfl : between = after := congrArg Prod.snd h
    have hlines : ["✓ Configuration initialized at: " ++ place] =
        ["✓ Configuration initialized at: " ++ path] := Except.ok.inj (congrArg Prod.fst h)
    obtain rfl : place = path := (String.append_right_inj _).mp (List.singleton_inj.mp hlines)
    obtain ⟨text, hwrite, htext⟩ := fs.exists_text_of_save hsave
    exact ⟨made, text, hwrite, htext⟩

/-- Where there is no file and nothing stands in the way, the program writes one. -/
theorem exists_runIn_init (world : World δ) (force : Bool)
    (hpath : settingsPath? world.environment given = some path)
    (hmissing : fs.fileAt path world.disk = .missing)
    (hmake : ∀ directory, parent? path = some directory →
      (fs.makeDirectories directory world.disk).1 = true)
    (hwrite : ∀ text disk, (fs.writeFile path text disk).1 = true) :
    ∃ after, runIn (init fs.host given force) world =
      (.ok ["✓ Configuration initialized at: " ++ path], after) := by
  have hplace := fs.runIn_settingsFile world given
  rw [hpath] at hplace
  obtain ⟨disk, hmade⟩ := fs.runIn_makeParent world hmake
  have hfile : (StateT.run (fs.host.fileAt path) world).1 = .missing := hmissing
  obtain ⟨text, htext, -⟩ := exists_write_default (world.clock 0).offsetForm
  rw [init, runIn_bind_of_ok hplace, runIn_lift_bind, hfile]
  have hsaved := fs.runIn_save_of_written ⟨world.environment, disk, fun reading =>
    world.clock (reading + 1)⟩ htext (hwrite text disk)
  exact ⟨_, (runIn_bind_of_ok hmade).trans
    ((runIn_bind_of_ok (fs.runIn_timestamp _)).trans (runIn_bind_of_ok hsaved))⟩

end FileSystem

/-- The file of the default settings makes no difference but to the dates in the settings,
whatever the variables and the times are. So when the program has written its default settings
to the file that it reads, the settings in use are those of a place without that file, or
there is the same error. -/
theorem settingsIn_after_init :
    (∀ (made start later : String) (environment : List (String × String)),
      ∃ text, (Settings.default made).write = .ok text ∧
        loadOrDefault later (.text text) environment =
          (loadOrDefault start .missing environment).map (redate made)) ∧
    ∀ (δ : Type) (fs : FileSystem δ) (world after : World δ) (given : Option String)
      (force : Bool) (path : String),
      runIn (init fs.host given force) world =
        (.ok ["✓ Configuration initialized at: " ++ path], after) →
      ∃ made, ∀ (environment : List (String × String)) (given' : Option String) (bare : δ)
        (clock clock' : ℕ → Instant), settingsPath? environment given' = some path →
        fs.fileAt path bare = .missing →
        fs.settingsIn ⟨environment, after.disk, clock⟩ given' =
          (fs.settingsIn ⟨environment, bare, clock'⟩ given').map (redate made) := by
  constructor
  · intro made start later environment
    obtain ⟨text, hwrite, -⟩ := exists_write_default made
    exact ⟨text, hwrite, load_default hwrite start later environment⟩
  · intro δ fs world after given force path hinit
    obtain ⟨made, text, hwrite, htext⟩ := fs.exists_text_of_init hinit
    refine ⟨made, fun environment given' bare clock clock' hpath hbare => ?_⟩
    rw [fs.settingsIn_of_some _ hpath, fs.settingsIn_of_some _ hpath, htext, hbare,
      load_default hwrite (clock' 0).offsetForm]
    cases loadOrDefault (clock' 0).offsetForm .missing (relevant environment) <;> rfl

/-- Files that can all be written, by their paths. -/
def FileSystem.unlimited : FileSystem (String → FileContent) where
  fileAt path disk := disk path
  makeDirectories _ disk := (true, disk)
  writeFile path text disk := (true, Function.update disk path (.text text))
  fileAt_writeFile {path text disk disk'} h := by
    obtain rfl : Function.update disk path (.text text) = disk' := congrArg Prod.snd h
    exact Function.update_self path _ disk

/-- A variable sets the number of results, without a file and with the one that has been
written. -/
theorem settingsIn_after_init_seven :
    let environment := [("HOME", "/root"), ("RECALL_QUERY_LIMITS__MAX_RESULTS", " 7 ")]
    let bare : String → FileContent := fun _ => .missing
    let clock : ℕ → Instant := fun _ => Instant.midnight Date.last
    let path := "/root/.config/recall/config.toml"
    let results (disk : String → FileContent) :=
      (FileSystem.unlimited.settingsIn ⟨environment, disk, clock⟩ none).toOption.map
        (·.queryLimits.maxResults)
    ∃ after, (runIn (init FileSystem.unlimited.host none false) ⟨environment, bare, clock⟩ =
          (.ok ["✓ Configuration initialized at: " ++ path], after) ∧
        settingsPath? environment none = some path ∧
        FileSystem.unlimited.fileAt path bare = .missing) ∧
      results bare = some 7 ∧ results after.disk = some 7 := by
  intro environment bare clock path results
  have hpath : settingsPath? environment none = some path := by decide +kernel
  obtain ⟨after, hinit⟩ := FileSystem.unlimited.exists_runIn_init ⟨environment, bare, clock⟩ false
    hpath rfl (fun _ _ => rfl) (fun _ _ => rfl)
  have hbare : results bare = some 7 := by decide +kernel
  obtain ⟨made, hsame⟩ := settingsIn_after_init.2 _ _ _ _ _ _ _ hinit
  refine ⟨after, ⟨hinit, hpath, rfl⟩, hbare, ?_⟩
  have hafter : results after.disk = results bare := by
    simp only [results, hsame environment none bare clock clock hpath rfl]
    cases FileSystem.unlimited.settingsIn ⟨environment, bare, clock⟩ none <;> rfl
  exact hafter.trans hbare

end Daybook.Command
