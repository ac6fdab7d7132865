/-!
What a program asks of the file system: what a path leads to, and what a file holds.
-/
set_option autoImplicit false

namespace FeatureLogic

/-- Why a file cannot be reached or read. -/
inductive FileError where
  | notFound
  | notDirectory
  | directory
  | nameTooLong
  | nulInName
  | notText
  | other (text : String)
  deriving DecidableEq

def FileError.message : FileError → String
  | notFound => "No such file or directory (os error 2)"
  | notDirectory => "Not a directory (os error 20)"
  | directory => "Is a directory (os error 21)"
  | nameTooLong => "File name too long (os error 36)"
  | nulInName => "file name contained an unexpected NUL byte"
  | notText => "stream did not contain valid UTF-8"
  | other text => text

/-- The content is fetched only when it is asked for. -/
structure File where
  size : Nat
  content : Thunk ByteArray

/-- The content of a file that holds UTF-8. -/
def File.text? (f : File) : Option String := String.fromUTF8? f.content.get

inductive FileSystem.Entry where
  | file (f : File)
  | directory

/-- Resolves a path, name by name. -/
abbrev FileSystem := String → Except FileError FileSystem.Entry

namespace FileSystem

/-- How long a path may be that is opened as it stands, in bytes. -/
def pathLimit : Nat := 4095

/-- What a path leads to that has not been resolved before. -/
def entryAt (files : FileSystem) (path : String) : Except FileError Entry :=
  if pathLimit < path.utf8ByteSize then .error .nameTooLong else files path

end FileSystem

end FeatureLogic
