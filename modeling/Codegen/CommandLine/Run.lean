import Codegen.CommandLine.Arguments
import Codegen.Config.Reader
import Codegen.Files
import Codegen.Json.Flaw
import Codegen.Lowering.Module
import Codegen.Path
import Codegen.Program.Codec

/-!
# Running commands

`emit` prints the module of a program or writes it to a file, `check` only says how large the
module is.  A command that fails prints nothing, writes nothing and reports every error.  Reports
are drawn by a renderer, and one on which it gives up ends the run.
-/

namespace Codegen.CommandLine

open Lowering

/-- The name of the configuration file beside a program. -/
def configName : String := "colgm.toml"

/-- An error with the text of its source file. -/
structure Report where
  error : Error
  /-- The source file. -/
  file : String
  /-- Its text, if it can be read. -/
  source? : Option String

namespace Report

/-- The range of the source file that is marked: the place of the error, if the file is at hand. -/
def label? (report : Report) : Option Span :=
  if report.source?.isSome then report.error.span? else none

/-- The marked range ends before it starts. -/
def isBackward (report : Report) : Bool := report.label?.any fun span => span.stop < span.start

/-- The first line of a report; the error itself is drawn into the source file if there is one. -/
def text (report : Report) : String :=
  if report.label?.isSome then report.error.title ++ " error"
  else report.error.title ++ " error: " ++ report.error.text

end Report

/-- What draws reports on the terminal. -/
structure Renderer where
  /-- Whether the report is drawn; otherwise the renderer gives up, and the run ends. -/
  draws (report : Report) : Bool

/-- A renderer that gives up on marked ranges that end before they start, and on nothing else. -/
def Renderer.basic : Renderer where
  draws report := !report.isBackward

/-- What a run gives. -/
structure Outcome where
  exitCode : Nat
  output : String := ""
  reports : List Report := []

/-- Why a text is no program. -/
def programFault (text : String) : String :=
  match Json.flaw? text with
  | some flaw => flaw.text
  | none => "the value is no program"

section

variable {m : Type → Type} [Monad m] (files : Files m)

/-- What the text of a file stands for; `unread` is the kind of error if there is no text, and
`malformed` the error of a text that stands for nothing. -/
def readAs {α : Type} (parse? : String → Option α) (unread malformed : String → Error)
    (path : String) : ExceptT Error m α := do
  match ← files.read path with
  | .error error => throw (unread ("cannot read " ++ path ++ ": " ++ error.text))
  | .ok text =>
    match parse? text with
    | some value => pure value
    | none => throw (malformed text)

/-- The program in a file. -/
def loadProgram : String → ExceptT Error m Program :=
  readAs files Program.parse? .io fun text => .input (programFault text)

/-- The configuration in a file. -/
def readConfig (path : String) : ExceptT Error m Config :=
  readAs files Config.parse? .config (fun _ => .config (path ++ " is no configuration")) path

/-- The configuration for a program: the given one, or the one beside the program if there is one.
-/
def loadConfig (path : String) (given : Option String) : ExceptT Error m Config := do
  let config ← match given with
    | some file => readConfig files file
    | none =>
      let file := Path.beside path configName
      if ← files.isFile file then readConfig files file else pure {}
  pure { config with directory := ← files.directory }

/-- A configuration with options over it. -/
def EmitOptions.over (options : EmitOptions) (config : Config) : Config :=
  { config with
    targetTriple := options.target.or config.targetTriple
    debugInfo := config.debugInfo && !options.noDebugInfo
    verify := config.verify || options.verify }

/-- The output of `emit`. -/
def runEmit (path : String) (options : EmitOptions) : ExceptT Error m String := do
  let program ← loadProgram files path
  let config ← loadConfig files path options.config
  let text ← emitText program (options.over config)
  match options.output with
  | none => pure text
  | some output =>
    match ← files.write output text with
    | .ok () => pure ""
    | .error error => throw (.io ("cannot write " ++ output ++ ": " ++ error.text))

/-- How large a module is. -/
def summary (path : String) (m : Ir.Module) : String :=
  Text.line <| "✓ " ++ path ++ ": " ++ Text.decimal m.impls.length ++ " functions, " ++
    Text.decimal m.decls.length ++ " declarations, " ++
    Text.decimal (m.impls.flatMap fun f => f.blocks).length ++ " blocks"

/-- The output of `check`. -/
def runCheck (path : String) : ExceptT Error m String := do
  let program ← loadProgram files path
  let config ← loadConfig files path none
  let m ← lowerProgram program.context program.symbols config
  if m.verify.isEmpty then pure (summary path m)
  else throw (.lowering (m.verify.map flowError))

/-- The report of an error; without a file of its own it is about the file of the command. -/
def report (path : String) (error : Error) : m Report := do
  let file := if error.file = "" then path else error.file
  match ← files.read file with
  | .ok text => pure ⟨error, file, some text⟩
  | .error _ => pure ⟨error, file, none⟩

variable (renderer : Renderer)

/-- The reports of errors in order as far as they are drawn, and whether all of them are. -/
def reportAll (path : String) : List Error → m (List Report × Bool)
  | [] => pure ([], true)
  | error :: rest => do
    let first ← report files path error
    if renderer.draws first then
      let (others, all) ← reportAll path rest
      pure (first :: others, all)
    else pure ([], false)

/-- The exit code of a failed command, given whether all its reports are drawn. -/
def failureCode (drawn : Bool) : Nat := if drawn then 1 else 101

/-- The outcome of a command about the file `path`. -/
def conclude (path : String) (command : ExceptT Error m String) : m Outcome := do
  match ← command.run with
  | .ok output => pure { exitCode := 0, output }
  | .error error =>
    let (reports, drawn) ← reportAll files renderer path error.parts
    pure { exitCode := failureCode drawn, reports }

/-- Runs a command. -/
def Command.run : Command → m Outcome
  | .emit path options => conclude files renderer path (runEmit files path options)
  | .check path => conclude files renderer path (runCheck files path)

/-- How the program is used. -/
def usage : String :=
  Text.concat <| List.map Text.line
    ["Usage: colgm [-v] [-q] emit FILE [-o OUTPUT] [--config CONFIG] [--target TRIPLE]",
      "             [--no-debug-info] [--verify]",
      "       colgm [-v] [-q] check FILE",
      "       colgm --version"]

/-- Runs the program with arguments. -/
def run (arguments : List String) : m Outcome :=
  match Command.parse arguments with
  | .ok command => command.run files renderer
  | .error .version => pure { exitCode := 0, output := Text.line ("colgm " ++ version) }
  | .error .help => pure { exitCode := 0, output := usage }
  | .error .usage => pure { exitCode := 2 }

end

end Codegen.CommandLine
