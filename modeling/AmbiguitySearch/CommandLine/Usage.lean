import AmbiguitySearch.CommandLine.Numeral
import AmbiguitySearch.Text.Terminal

/-!
# The arguments of the program

The program takes a grammar file and a length, and options that say how to
search. This module names them and words what the program says about itself
and about arguments it cannot use.
-/

namespace AmbiguitySearch.CommandLine

/-- An argument that is given a value. -/
inductive Slot where
  | file
  | maxLength
  | start
  | seed
  | depthLimit
deriving DecidableEq

/-- How an argument is referred to. -/
def Slot.label : Slot → String
  | .file => "<FILE>"
  | .maxLength => "<MAX_LENGTH>"
  | .start => "--start <SYMBOL>"
  | .seed => "--seed <SEED>"
  | .depthLimit => "--depth-limit <STEPS>"

/-- An option without a value. -/
inductive Flag where
  | verbose
  | help
  | version
deriving DecidableEq

def Flag.label : Flag → String
  | .verbose => "--verbose"
  | .help => "--help"
  | .version => "--version"

def usage : String := "Usage: ambiguity [OPTIONS] <FILE> <MAX_LENGTH>\n"

def versionText : String := "ambiguity 0.1.0\n"

def helpText : String :=
  "Searches context-free grammars for ambiguous words\n\n" ++ usage ++ "\n" ++
  "Arguments:\n" ++
  "  <FILE>        File containing the grammar, one `A -> body | body` rule per line\n" ++
  "  <MAX_LENGTH>  Longest word to test\n\n" ++
  "Options:\n" ++
  "  -s, --start <SYMBOL>       Start symbol (default: first in the file)\n" ++
  "      --seed <SEED>          Seed for the rule order of the search (default: random)\n" ++
  "  -d, --depth-limit <STEPS>  Derivation steps tried on one word before giving up " ++
    "[default: 2000]\n" ++
  "  -v, --verbose              Report every tested word on stderr\n" ++
  "  -h, --help                 Print help\n" ++
  "  -V, --version              Print version\n"

/-- Why a call cannot be carried out. -/
inductive UsageError where
  /-- A file or a length is missing. -/
  | missingArguments (missing : List Slot)
  /-- The argument is none that the program knows. -/
  | unexpectedArgument (argument : String)
  /-- A flag was given a value. -/
  | unexpectedValue (flag : Flag) (value : String)
  /-- An argument was given no value. -/
  | missingValue (slot : Slot)
  /-- An argument was given twice; the text refers to it. -/
  | repeated (label : String)
  /-- The value is no number. -/
  | malformed (slot : Slot) (value : String) (fault : NumeralFault)
deriving DecidableEq

/-- The wording of an error. Of what the caller wrote, it repeats what a terminal
shows. -/
def UsageError.message : UsageError → String
  | .missingArguments missing =>
    "the following required arguments were not provided:" ++
      String.join (missing.map fun slot => s!"\n  {slot.label}")
  | .unexpectedArgument argument => s!"unexpected argument '{Text.visible argument}' found"
  | .unexpectedValue flag value =>
    s!"unexpected value '{Text.visible value}' for '{flag.label}' found; no more were expected"
  | .missingValue slot => s!"a value is required for '{slot.label}' but none was supplied"
  | .repeated label => s!"the argument '{label}' cannot be used multiple times"
  | .malformed slot value fault =>
    s!"invalid value '{Text.visible value}' for '{slot.label}': {fault.message}"

/-- An error with the advice that goes with it. -/
def UsageError.display (error : UsageError) : String :=
  s!"error: {error.message}\n\n{usage}\nFor more information, try '--help'.\n"

end AmbiguitySearch.CommandLine
