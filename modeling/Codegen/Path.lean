import Codegen.Text.Basic

/-!
# Paths

A path is a text with slashes between its parts.  The empty part and the part `.` stay in their
directory, so they may be left out wherever they do not begin the path.
-/

namespace Codegen.Path

/-- The parts of a path, with an empty part for every superfluous slash. -/
def parts (path : String) : List String :=
  (Text.split '/' path.toList).map String.ofList

/-- Whether a part of a path stays in its directory. -/
def isIdle (part : String) : Bool := part = "" || part = "."

/-- The parts without the idle ones at their end. -/
def dropIdleEnd (parts : List String) : List String :=
  (parts.reverse.dropWhile isIdle).reverse

/-- The path of another file in the directory of a file.  Idle parts between the directory and the
name of the file are left out. -/
def beside (path name : String) : String :=
  match (parts path).dropLast with
  | [] => name
  | first :: rest => Text.join "/" (first :: dropIdleEnd rest ++ [name])

end Codegen.Path
