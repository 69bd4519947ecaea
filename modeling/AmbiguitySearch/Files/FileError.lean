/-!
# Why a file cannot be read

A `FileError` has a kind, which is what errors are compared by, and a text. The
errors of the operating system carry its wording and its number.
-/

namespace AmbiguitySearch

inductive FileErrorKind where
  | notFound
  | permissionDenied
  | notADirectory
  | isADirectory
  | invalidFilename
  | invalidInput
  | invalidData
  | unexpectedEof
  | other
deriving DecidableEq

/-- What a failure of a kind is called when nothing more is known. -/
def FileErrorKind.description : FileErrorKind → String
  | .notFound => "entity not found"
  | .permissionDenied => "permission denied"
  | .notADirectory => "not a directory"
  | .isADirectory => "is a directory"
  | .invalidFilename => "invalid filename"
  | .invalidInput => "invalid input parameter"
  | .invalidData => "invalid data"
  | .unexpectedEof => "unexpected end of file"
  | .other => "other error"

structure FileError where
  kind : FileErrorKind
  text : String
deriving DecidableEq

namespace FileError

/-- An error about which only the kind is known. -/
def ofKind (kind : FileErrorKind) : FileError := ⟨kind, kind.description⟩

/-- An error of the operating system, with its number. -/
def system (kind : FileErrorKind) (text : String) (number : Nat) : FileError :=
  ⟨kind, s!"{text} (os error {number})"⟩

def noSuchFile : FileError := system .notFound "No such file or directory" 2

def denied : FileError := system .permissionDenied "Permission denied" 13

/-- A file is used as if it were a directory. -/
def notADirectory : FileError := system .notADirectory "Not a directory" 20

/-- A directory is read as if it were a file. -/
def isADirectory : FileError := system .isADirectory "Is a directory" 21

/-- The path or a part of it is longer than any name can be. -/
def nameTooLong : FileError := system .invalidFilename "File name too long" 36

/-- The path holds a character that ends names. -/
def nulInPath : FileError := ⟨.invalidInput, "file name contained an unexpected NUL byte"⟩

/-- The bytes are no text. -/
def notText : FileError := ⟨.invalidData, "stream did not contain valid UTF-8"⟩

/-- The error that the operating system reports by a number. -/
def ofSystem? : Nat → Option FileError
  | 2 => some noSuchFile
  | 13 => some denied
  | 20 => some notADirectory
  | 21 => some isADirectory
  | 36 => some nameTooLong
  | _ => none

end FileError

end AmbiguitySearch
