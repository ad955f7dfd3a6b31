import Reckoner.CommandLine.Source

/-!
Folders: files and directories under relative paths, and what stands under a path seen from there.
-/

namespace Reckoner.CommandLine

/-- Contents by path components; a directory has no contents of its own. -/
structure Folder where
  entries : List (List String × Option (List UInt8))

namespace Folder

/-- What stands under the components of a path. Each directory on the way to an entry exists. -/
def entry (folder : Folder) (components : List String) : Source :=
  match folder.entries.lookup components with
  | some (some bytes) => .file bytes
  | some none => .directory
  | none =>
    if folder.entries.any fun (path, _) => components.isPrefixOf path then .directory else .missing

/-- Follow components from a directory of the folder. Two dots lead one directory up; above the folder
nothing is known but directories. -/
def follow (folder : Folder) : List String → List String → Source
  | _, [] => .directory
  | here, ".." :: rest =>
    if !here.isEmpty then folder.follow here.dropLast rest
    else if rest.all (· = "..") then .directory
    else .missing
  | here, name :: rest =>
    if maxNameBytes < name.utf8ByteSize then .nameTooLong
    else match folder.entry (here ++ [name]) with
    | .directory => folder.follow (here ++ [name]) rest
    | found => if rest.isEmpty then found else .missing

/-- What stands under a path. Of what is outside the folder only the root is known. -/
def source (folder : Folder) (path : String) : Source :=
  if maxPathBytes < (tidyPath path).utf8ByteSize then .nameTooLong
  else match pathRoot path, pathComponents path with
  | "", components => folder.follow [] components
  | _, [] => .directory
  | _, name :: _ => if maxNameBytes < name.utf8ByteSize then .nameTooLong else .missing

end Folder

end Reckoner.CommandLine
