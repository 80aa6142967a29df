import Codegen.Span

/-!
# Errors

What can go wrong between a file and its output.  Turning a program into blocks collects every
problem it finds; such a collection is one error with parts.
-/

namespace Codegen

/-- An error. -/
inductive Error where
  /-- A program that cannot be turned into blocks, at a place of a source file. -/
  | internal (message : String) (span : Span) (file : String)
  /-- A file that cannot be read or written. -/
  | io (message : String)
  /-- A text that is no program. -/
  | input (message : String)
  /-- A text that is no configuration. -/
  | config (message : String)
  /-- Output that could not be formatted. -/
  | format
  /-- Everything found wrong with one program. -/
  | lowering (errors : List Error)
  deriving Inhabited

namespace Error

/-- The name of the kind of error, as reports write it. -/
def title : Error → String
  | internal .. => "Internal"
  | io _ => "IO"
  | input _ => "Input"
  | config _ => "Config"
  | format => "Format"
  | lowering _ => "Lowering"

/-- What went wrong, without its place. -/
def message : Error → String
  | internal message _ _ => message
  | io message => message
  | input message => message
  | config message => message
  | format => "an error occurred when formatting an argument"
  | lowering errors => Text.decimal errors.length ++ " internal error(s)"

/-- The whole error on one line. -/
def text : Error → String
  | internal message span file =>
    "internal error at " ++ file ++ ":" ++ span.text ++ ": " ++ message
  | io message => "IO error: " ++ message
  | input message => "input error: " ++ message
  | config message => "config error: " ++ message
  | format => "formatting error: " ++ format.message
  | lowering errors => "lowering failed with " ++ (lowering errors).message

/-- The place of the error, if it has one. -/
def span? : Error → Option Span
  | internal _ span _ => some span
  | _ => none

/-- The source file of the error, empty when it is not known. -/
def file : Error → String
  | internal _ _ file => file
  | _ => ""

/-- The parts of a collection of errors, or the error itself. -/
def parts : Error → List Error
  | lowering errors => errors
  | error => [error]

end Error

end Codegen
