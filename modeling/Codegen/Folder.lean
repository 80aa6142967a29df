import Codegen.Files
import Codegen.Path

/-!
# Folders in memory

A folder is a list of files under paths.  A directory exists where some file lies below it, and the
folder itself is the working directory `/`.  Beyond the folder nothing is known: no file is found
there, and what is written there is not kept.
-/

namespace Codegen

/-- Files with the parts of their paths; of several with one path the first one counts. -/
structure Folder where
  files : List (List String × String) := []

namespace Folder

open Codegen.Path (parts isIdle)

/-- The folder with the given texts under the given paths. -/
def ofTexts (texts : List (String × String)) : Folder :=
  ⟨texts.map fun (path, text) => ((parts path).filter fun part => !isIdle part, text)⟩

/-- The text of the file at a place. -/
def text? (folder : Folder) (place : List String) : Option String := folder.files.lookup place

/-- Whether a place is a directory. -/
def isDirectory (folder : Folder) (place : List String) : Bool :=
  place.isEmpty ||
    folder.files.any fun file => place.isPrefixOf file.1 && place.length < file.1.length

/-- What a path leads to. -/
inductive Target where
  | directory
  | file (place : List String) (text : String)
  /-- No file, but one may be created there. -/
  | free (place : List String)
  /-- A file that may be created beyond the folder. -/
  | beyond

/-- How many bytes a path may take. -/
def maxPathBytes : Nat := 4095

/-- How many bytes a part of a path may take. -/
def maxPartBytes : Nat := 255

/-- A directory: one of the folder with its place, or one beyond it. -/
abbrev Directory := Option (List String)

/-- The directory around a directory. -/
def parent : Directory → Directory
  | some [] => none
  | here => here.map List.dropLast

/-- Follows the parts of a path from a directory. -/
def follow (folder : Folder) : Directory → List String → Except FileError Target
  | _, [] => .ok .directory
  | here, part :: rest =>
    if isIdle part then follow folder here rest
    else if part = ".." then follow folder (parent here) rest
    else if maxPartBytes < part.utf8ByteSize then .error .nameTooLong
    else
      match here with
      | none => if rest.isEmpty then .ok .beyond else .error .notFound
      | some above =>
        let place := above ++ [part]
        match folder.isDirectory place, folder.text? place, rest with
        | true, _, _ => follow folder (some place) rest
        | false, some text, [] => .ok (.file place text)
        | false, some _, _ :: _ => .error .notDirectory
        | false, none, [] => .ok (.free place)
        | false, none, _ :: _ => .error .notFound

/-- The directory from which a path is followed. -/
def origin (path : String) : Directory :=
  if path.toList.head? = some '/' then none else some []

/-- What a path leads to; the empty path leads nowhere. -/
def resolve (folder : Folder) (path : String) : Except FileError Target :=
  if path = "" then .error .notFound
  else if maxPathBytes < path.utf8ByteSize then .error .nameTooLong
  else folder.follow (origin path) (parts path)

/-- The text of the file that a path leads to. -/
def read (folder : Folder) (path : String) : Except FileError String := do
  match ← folder.resolve path with
  | .file _ text => .ok text
  | .directory => .error .isDirectory
  | .free _ => .error .notFound
  | .beyond => .error .notFound

/-- Whether a path leads to a file. -/
def isFile (folder : Folder) (path : String) : Bool :=
  match folder.resolve path with
  | .ok (.file ..) => true
  | _ => false

/-- The folder with a file replaced or added. -/
def put (folder : Folder) (place : List String) (text : String) : Folder :=
  ⟨(place, text) :: folder.files.filter fun file => file.1 ≠ place⟩

/-- The path up to its last part, slash included, when slashes follow that part. -/
def slashed? (path : String) : Option String :=
  match path.toList.reverse with
  | '/' :: rest =>
    some (String.ofList ((rest.dropWhile (· = '/')).dropWhile (· ≠ '/')).reverse)
  | _ => none

/-- What a path to be written leads to.  A path that ends in slashes asks for a directory, whatever
its last part is, if only that part may be looked for. -/
def resolveOutput (folder : Folder) (path : String) : Except FileError Target :=
  match slashed? path with
  | none => folder.resolve path
  | some above =>
    if maxPathBytes < path.utf8ByteSize then .error .nameTooLong
    else do
      let _ ← folder.follow (origin path) (parts above)
      .ok .directory

/-- Writes a file. -/
def write (folder : Folder) (path text : String) : Except FileError Folder := do
  match ← folder.resolveOutput path with
  | .file place _ => .ok (folder.put place text)
  | .free place => .ok (folder.put place text)
  | .beyond => .ok folder
  | .directory => .error .isDirectory

/-- Access to a folder in memory. -/
def access : Files (StateM Folder) where
  read path := do pure ((← get).read path)
  write path text := do
    match (← get).write path text with
    | .ok folder =>
      set folder
      pure (.ok ())
    | .error error => pure (.error error)
  isFile path := do pure ((← get).isFile path)
  directory := pure "/"

end Folder

end Codegen
