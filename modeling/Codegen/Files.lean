import Codegen.Text.Basic

/-!
# Access to files

What the commands need to know of a file system.  `Files m` is a file system whose operations are
steps of `m`; a folder in memory and the folder of a running program are two of them.
-/

namespace Codegen

/-- Why a file could not be read or written. -/
structure FileError where
  reason : String
  /-- The number of the error. -/
  code : Nat
  deriving DecidableEq

namespace FileError

/-- Nothing has the path. -/
def notFound : FileError := ⟨"No such file or directory", 2⟩

/-- A file stands where the path needs a directory. -/
def notDirectory : FileError := ⟨"Not a directory", 20⟩

/-- The path leads to a directory. -/
def isDirectory : FileError := ⟨"Is a directory", 21⟩

/-- The path, or one of its parts, takes too many bytes. -/
def nameTooLong : FileError := ⟨"File name too long", 36⟩

/-- The reason with its number. -/
def text (error : FileError) : String :=
  error.reason ++ " (os error " ++ Text.decimal error.code ++ ")"

end FileError

/-- Access to files by their paths. -/
structure Files (m : Type → Type) where
  /-- The text of a file. -/
  read : String → m (Except FileError String)
  /-- Replaces the text of a file, or creates the file. -/
  write : String → String → m (Except FileError Unit)
  /-- Whether a path leads to a file. -/
  isFile : String → m Bool
  /-- The working directory. -/
  directory : m String

end Codegen
