import Daybook.Command.Run
import Std.Time.DateTime.Timestamp

/-!
# The program

Runs on the files, the environment and the clock of the computer. Failures are
reported on the standard error stream.
-/

namespace Daybook.Main

/-- The time that the clock shows. -/
def clock : IO Instant := do
  let shown := (← Std.Time.Timestamp.now).val
  let start := (Instant.ofSeconds? shown.second.val).getD (Instant.midnight Date.last)
  return { start with nano := shown.nano.val.toNat % 1000000000, nano_lt := by omega }

/-- Whether something could be done. -/
def succeeds (task : IO Unit) : IO Bool := do
  try
    task
    return true
  catch _ => return false

/-- What there is under a path. A path that cannot be resolved leads nowhere. -/
def fileAt (path : String) : IO Settings.FileContent := do
  if !(← succeeds (discard (IO.FS.realPath path))) then return .missing
  try
    match String.fromUTF8? (← IO.FS.readBinFile path) with
    | some text => return .text text
    | none => return .unreadable
  catch _ => return .unreadable

/-- The computer on which the program runs. -/
def computer : Command.Host IO where
  lookup := fun name => IO.getEnv name
  fileAt := fileAt
  makeDirectories := fun path =>
    if path.isEmpty then pure true else succeeds (IO.FS.createDirAll path)
  writeFile := fun path text => succeeds (IO.FS.writeFile path text)
  now := clock

end Daybook.Main

/-- The program: it reads its arguments, and its result is the exit code. -/
def main (arguments : List String) : IO UInt32 := do
  let report ← Daybook.Command.run Daybook.Main.computer arguments
  IO.print report.output
  if let some failure := report.failure then IO.eprintln ("Error: " ++ failure.message)
  return report.code.toUInt32
