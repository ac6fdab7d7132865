import FeatureLogic.FileSystem.Basic
/-!
A folder in memory. Paths are looked up in it name by name; what lies outside of it is unknown.
-/
set_option autoImplicit false

namespace FeatureLogic

/-- Files and folders by the names that lead to them. -/
structure Folder where
  files : List (List String × File)
  folders : List (List String)

namespace Folder

/-- Where a path has led so far. -/
inductive Place where
  | inside (names : List String)
  | outside

def file? (d : Folder) (names : List String) : Option File :=
  (d.files.find? (·.1 = names)).map (·.2)

/-- Whether there is a folder of those names, which may be there for the sake of one in it. -/
def hasFolder (d : Folder) (names : List String) : Bool :=
  names.isEmpty || (d.folders ++ d.files.map fun f => f.1.dropLast).any names.isPrefixOf

def nameLimit : Nat := 255

/-- One name further. Nothing is below a file, not even the file itself. -/
def step (d : Folder) (name : String) : Place → Except FileError Place
  | .outside =>
    if name = "" || name = "." || name = ".." then .ok .outside
    else .error (if nameLimit < name.utf8ByteSize then .nameTooLong else .notFound)
  | .inside names =>
    if (d.file? names).isSome then .error .notDirectory
    else if name = "" || name = "." then .ok (.inside names)
    else if name = ".." then .ok (if names.isEmpty then .outside else .inside names.dropLast)
    else if nameLimit < name.utf8ByteSize then .error .nameTooLong
    else
      let names := names ++ [name]
      if (d.file? names).isSome || d.hasFolder names then .ok (.inside names)
      else .error .notFound

def entry (d : Folder) : Place → FileSystem.Entry
  | .inside names =>
    match d.file? names with
    | some f => .file f
    | none => .directory
  | .outside => .directory

def fileSystem (d : Folder) : FileSystem := fun path =>
  if path.any (· = '\x00') then .error .nulInName
  else if path = "" then .error .notFound
  else
    let start : Place := if path.startsWith "/" then .outside else .inside []
    ((path.splitOn "/").foldlM (fun place name => d.step name place) start).map d.entry

end Folder

end FeatureLogic
