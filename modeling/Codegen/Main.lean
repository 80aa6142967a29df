import Codegen.CommandLine.Run

/-!
# The program

Runs the command line on the files of the system.
-/

namespace Codegen

/-- The reason and number of a system error. -/
def systemError : IO.Error → FileError
  | .noFileOrDirectory _ code details => ⟨details, code.toNat⟩
  | .inappropriateType _ code details => ⟨details, code.toNat⟩
  | .permissionDenied _ code details => ⟨details, code.toNat⟩
  | .invalidArgument _ code details => ⟨details, code.toNat⟩
  | .resourceExhausted _ code details => ⟨details, code.toNat⟩
  | .otherError code details => ⟨details, code.toNat⟩
  | error => ⟨toString error, 0⟩

/-- The result of a step on files. -/
def attempt {α : Type} (action : IO α) : IO (Except FileError α) := do
  try
    pure (.ok (← action))
  catch error =>
    pure (.error (systemError error))

/-- Access to the files of the system. -/
def systemFiles : Files IO where
  read path := attempt (IO.FS.readFile path)
  write path text := attempt (IO.FS.writeFile path text)
  isFile path := do
    match ← attempt ((← IO.currentDir) / path).metadata with
    | .ok data => pure (data.type == .file)
    | .error _ => pure false
  directory := do pure (← IO.currentDir).toString

/-- Prints a report. -/
def printReport (report : CommandLine.Report) : IO Unit := do
  IO.eprintln report.text
  if report.label?.isSome then
    IO.eprintln ("  " ++ report.file ++ ": " ++ report.error.message)

end Codegen

/-- Runs one command line and gives its exit code. -/
def main (arguments : List String) : IO UInt32 := do
  let outcome ← Codegen.CommandLine.run Codegen.systemFiles .basic arguments
  IO.print outcome.output
  if outcome.exitCode = 2 then
    IO.eprint Codegen.CommandLine.usage
  for report in outcome.reports do
    Codegen.printReport report
  pure outcome.exitCode.toUInt32
