import AmbiguitySearch.CommandLine.Response

/-!
# The program

Everything is decided in `CommandLine`. Here the file is read, a seed is drawn
for calls that name none, and the answer is written out.
-/

namespace AmbiguitySearch

/-- The error of the operating system by its number, which some calls report
with a minus sign. -/
def fileErrorOfNumber (number : UInt32) : FileError :=
  (FileError.ofSystem? (min number.toNat (UInt32.size - number.toNat))).getD (.ofKind .other)

/-- The reason for a failure to read a file. -/
def fileErrorOf (error : IO.Error) : FileError :=
  match error with
  | .noFileOrDirectory _ number _ => fileErrorOfNumber number
  | .permissionDenied _ number _ => fileErrorOfNumber number
  | .inappropriateType _ number _ => fileErrorOfNumber number
  | .invalidArgument _ number _ => fileErrorOfNumber number
  | .resourceExhausted _ number _ => fileErrorOfNumber number
  | .noSuchThing _ number _ => fileErrorOfNumber number
  | .otherError number _ => fileErrorOfNumber number
  | .unexpectedEof => .ofKind .unexpectedEof
  | _ => .ofKind .other

def openFile (path : String) : IO (Except FileError (List UInt8)) := do
  if path.toList.contains '\x00' then return .error .nulInPath
  try
    return .ok (← IO.FS.readBinFile path).toList
  catch error => return .error (fileErrorOf error)

/-- A seed that nobody can foresee. -/
def randomSeed : IO Nat := do
  return (← IO.getRandomBytes 8).toList.foldl (fun seed byte => seed * 256 + byte.toNat) 0

def answer (arguments : List String) : IO CommandLine.Response := do
  match CommandLine.parse arguments with
  | .error stop => return stop.response
  | .ok options =>
    match CommandLine.execute options (← openFile options.file) (← randomSeed) with
    | .ok response => return response
    | .error error => return { exit := 101, stdout := "", stderr := error.message ++ "\n" }

end AmbiguitySearch

open AmbiguitySearch in
def main (arguments : List String) : IO UInt32 := do
  let response ← answer arguments
  IO.eprint response.stderr
  IO.print response.stdout
  return response.exit.toUInt32
