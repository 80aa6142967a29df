/-!
# Command lines

A command line names a command and gives it a file and options.  Some options may stand in front of
the command.  Arguments are taken one by one; the first one that is wrong, or that asks for the
version or for help, ends the reading.  Behind the word `help` may stand the one command that the
help is about, and nothing else: there even an option is read as the name of a command.
-/

namespace Codegen.CommandLine

/-- Options of `emit`, over those of a configuration file. -/
structure EmitOptions where
  /-- Where the module is written. -/
  output : Option String := none
  config : Option String := none
  target : Option String := none
  noDebugInfo : Bool := false
  verify : Bool := false

/-- A command with its file. -/
inductive Command where
  /-- Prints the module of a program. -/
  | emit (file : String) (options : EmitOptions)
  /-- Only checks a program. -/
  | check (file : String)

/-- Why there is no command to run. -/
inductive Halt where
  | version
  | help
  /-- A wrong, missing or repeated argument. -/
  | usage
  deriving DecidableEq

/-- What an option is about. -/
inductive Flag where
  | verbose | quiet | version | help | output | config | target | noDebugInfo | verify
  deriving DecidableEq

/-- The place of an argument: in front of the command, behind it, behind the word `help`, or behind
the command that the help is about. -/
inductive Level where
  | top | emit | check | help | topic
  deriving DecidableEq

namespace Flag

/-- Whether a value follows the option. -/
def takesValue : Flag → Bool
  | output | config | target => true
  | _ => false

/-- Whether the value of the option is a path, which cannot be empty. -/
def isPath : Flag → Bool
  | output | config => true
  | _ => false

end Flag

/-- The long names of options; the first ones may stand everywhere. -/
def longNames : Level → List (String × Flag)
  | .top => [("verbose", .verbose), ("quiet", .quiet), ("help", .help), ("version", .version)]
  | .emit => [("verbose", .verbose), ("quiet", .quiet), ("help", .help), ("output", .output),
      ("config", .config), ("target", .target), ("no-debug-info", .noDebugInfo),
      ("verify", .verify)]
  | .check => [("verbose", .verbose), ("quiet", .quiet), ("help", .help)]
  | .help | .topic => []

/-- The one-letter names of options. -/
def shortNames : Level → List (Char × Flag)
  | .top => [('v', .verbose), ('q', .quiet), ('h', .help), ('V', .version)]
  | .emit => [('v', .verbose), ('q', .quiet), ('h', .help), ('o', .output)]
  | .check => [('v', .verbose), ('q', .quiet), ('h', .help)]
  | .help | .topic => []

/-- The commands, which are also what help can be about. -/
def commandNames : List (String × Level) :=
  [("emit", .emit), ("check", .check), ("help", .help)]

/-- The arguments read so far. -/
structure Progress where
  level : Level := .top
  /-- The option whose value must come next. -/
  pending : Option Flag := none
  /-- Whether only files may follow. -/
  optionsEnded : Bool := false
  /-- The options of this level with their values. -/
  given : List (Flag × String) := []
  file : Option String := none

namespace Progress

/-- An option with its value.  Only one option may be repeated. -/
def give (progress : Progress) (flag : Flag) (value : String) : Except Halt Progress :=
  if flag = .version then .error .version
  else if flag = .help then .error .help
  else if flag ≠ .verbose && (progress.given.lookup flag).isSome then .error .usage
  else if flag.isPath && value = "" then .error .usage
  else .ok { progress with pending := none, given := (flag, value) :: progress.given }

/-- An option without a value in its own argument. -/
def meet (progress : Progress) (flag : Flag) : Except Halt Progress :=
  if flag.takesValue then .ok { progress with pending := some flag } else progress.give flag ""

/-- An option by its long name, possibly with its value behind an equals sign. -/
def takeLong (progress : Progress) (text : List Char) : Except Halt Progress :=
  let name := String.ofList (text.takeWhile (· ≠ '='))
  match (longNames progress.level).lookup name, text.dropWhile (· ≠ '=') with
  | none, _ => .error .usage
  | some flag, [] => progress.meet flag
  | some flag, _ :: value =>
    if flag.takesValue then progress.give flag (String.ofList value) else .error .usage

/-- Options by their one-letter names; the rest behind one with a value is its value. -/
def takeShort (progress : Progress) : List Char → Except Halt Progress
  | [] => .ok progress
  | c :: rest =>
    match (shortNames progress.level).lookup c with
    | none => .error .usage
    | some flag =>
      if flag.takesValue then
        match rest with
        | [] => progress.meet flag
        | '=' :: value => progress.give flag (String.ofList value)
        | value => progress.give flag (String.ofList value)
      else do
        let progress ← progress.meet flag
        progress.takeShort rest

/-- An argument behind the word `help`: the one command that the help is about. -/
def takeTopic (progress : Progress) (argument : String) : Except Halt Progress :=
  if progress.level = .help && (commandNames.lookup argument).isSome then .ok { level := .topic }
  else .error .usage

/-- An argument that is no option: a command, or behind one its file. -/
def takePlain (progress : Progress) (argument : String) : Except Halt Progress :=
  match progress.level with
  | .top =>
    match progress.optionsEnded, commandNames.lookup argument with
    | false, some level => .ok { level }
    | _, _ => .error .usage
  | .emit | .check =>
    if progress.file.isSome || argument = "" then .error .usage
    else .ok { progress with file := some argument }
  | .help | .topic => progress.takeTopic argument

/-- Whether arguments that look like options are options. -/
def readsOptions (progress : Progress) : Bool :=
  !progress.optionsEnded && progress.level ≠ .help && progress.level ≠ .topic

/-- One argument. -/
def take (progress : Progress) (argument : String) : Except Halt Progress :=
  match progress.pending, argument.toList with
  | some _, '-' :: _ :: _ => .error .usage
  | some flag, _ => progress.give flag argument
  | none, text =>
    if progress.readsOptions then
      match text with
      | ['-', '-'] => .ok { progress with optionsEnded := true }
      | '-' :: '-' :: name => progress.takeLong name
      | '-' :: c :: rest => progress.takeShort (c :: rest)
      | _ => progress.takePlain argument
    else progress.takePlain argument

/-- The command, when the arguments end. -/
def finish (progress : Progress) : Except Halt Command :=
  match progress.pending, progress.level, progress.file with
  | none, .emit, some file => .ok <| .emit file
      { output := progress.given.lookup .output
        config := progress.given.lookup .config
        target := progress.given.lookup .target
        noDebugInfo := (progress.given.lookup .noDebugInfo).isSome
        verify := (progress.given.lookup .verify).isSome }
  | none, .check, some file => .ok (.check file)
  | none, .help, _ | none, .topic, _ => .error .help
  | _, _, _ => .error .usage

end Progress

/-- The command that arguments ask for. -/
def Command.parse (arguments : List String) : Except Halt Command := do
  let progress ← arguments.foldlM Progress.take {}
  progress.finish

end Codegen.CommandLine
