import AmbiguitySearch.Files.FileError
import AmbiguitySearch.Files.Path

/-!
# A directory in memory

A directory tree as a list of entries, and the reading of a file from it by a
path, failing in the way and in the order that a file system fails: first over
the path as a whole, then piece by piece from the left. Directories above an
entry exist without being listed.
-/

namespace AmbiguitySearch

/-- What has a name in a directory tree. -/
inductive DirectoryEntry where
  | file (contents : List UInt8)
  | directory
deriving DecidableEq

/-- The entries of a directory tree, each with the names that lead to it. -/
abbrev Directory := List (List String × DirectoryEntry)

namespace Directory

/-- The longest path, in bytes. -/
def longestPath : Nat := 4095

/-- The longest name, in bytes. -/
def longestName : Nat := 255

/-- The tree with the given files; a name without contents is a directory. -/
def ofFiles (files : List (String × Option (List UInt8))) : Directory :=
  files.map fun (name, contents) =>
    ((Path.pieces name).filter fun piece => piece != "" && piece != ".",
      contents.elim .directory .file)

/-- What the given names lead to. -/
def entry? (tree : Directory) (names : List String) : Option DirectoryEntry :=
  match tree.find? fun entry => entry.1 == names with
  | some (_, entry) => some entry
  | none =>
    if names.isEmpty || tree.any fun entry => names.isPrefixOf entry.1 then some .directory
    else none

/-- Where a path has led to so far. -/
inductive Place where
  /-- A directory of the tree. -/
  | inside (names : List String)
  /-- A directory that the tree is in. -/
  | outside
  | atFile (contents : List UInt8)

/-- Follows one piece of a path. An empty piece and `.` lead nowhere, but only
a directory can be left by a slash. -/
def follow (tree : Directory) (place : Place) (piece : String) : Except FileError Place :=
  match place with
  | .atFile _ => .error .notADirectory
  | .outside =>
    if piece == "" || piece == "." || piece == ".." then .ok .outside
    else if longestName < piece.utf8ByteSize then .error .nameTooLong
    else .error .noSuchFile
  | .inside names =>
    if piece == "" || piece == "." then .ok (.inside names)
    else if piece == ".." then .ok (if names.isEmpty then .outside else .inside names.dropLast)
    else if longestName < piece.utf8ByteSize then .error .nameTooLong
    else
      match tree.entry? (names ++ [piece]) with
      | none => .error .noSuchFile
      | some .directory => .ok (.inside (names ++ [piece]))
      | some (.file contents) => .ok (.atFile contents)

def read (tree : Directory) (path : String) : Except FileError (List UInt8) := do
  if path.toList.contains '\x00' then throw .nulInPath
  if path.isEmpty then throw .noSuchFile
  if longestPath < path.utf8ByteSize then throw .nameTooLong
  let origin := if Path.isAbsolute path then Place.outside else .inside []
  match ← (Path.pieces path).foldlM tree.follow origin with
  | .atFile contents => return contents
  | _ => throw .isADirectory

end Directory

end AmbiguitySearch
