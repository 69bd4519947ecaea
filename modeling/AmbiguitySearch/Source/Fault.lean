import AmbiguitySearch.Grammar.Definition
import AmbiguitySearch.Files.FileError
import AmbiguitySearch.Files.Path

/-!
# What can be wrong with a grammar file

A `Fault` is the cause, a `Location` the place, and a `SourceError` joins the
two. Errors are the same if they are of the same kind at the same place; a
missing start symbol is told apart by its name too, a failure to read by the
kind of failure and not by its wording.
-/

namespace AmbiguitySearch

/-- Why a source is not accepted. -/
inductive Fault where
  /-- The first symbol of a line is not followed by an arrow. -/
  | missingArrow
  | unexpectedArrow
  /-- A line starts with a sign. -/
  | missingNonterminal
  /-- There is nothing between two bars, or nothing after the arrow. -/
  | emptyAlternative
  /-- A line defines the name of the empty body. -/
  | epsilonDefined
  | emptyGrammar
  /-- The start symbol asked for is not defined. -/
  | undefinedStart (name : String)
  /-- A line without tokens was taken for a definition. -/
  | unexpectedBlankLine
  /-- The source cannot be read. -/
  | file (error : FileError)
deriving DecidableEq

namespace Fault

def message : Fault → String
  | .missingArrow => "Expected `->` after nonterminal"
  | .unexpectedArrow => "Unexpected second `->` encountered"
  | .missingNonterminal => "Tried to define something other than a nonterminal"
  | .emptyAlternative => s!"Empty alternative (write `{epsilon}` for the empty body)"
  | .epsilonDefined => s!"`{epsilon}` cannot be defined, it denotes the empty body"
  | .emptyGrammar => "No rules found"
  | .undefinedStart name => s!"Could not find definition for start symbol `{name}`"
  | .unexpectedBlankLine =>
    "Blank line encountered in rule parser (this is a problem with the reader, not the grammar)"
  | .file error => s!"File error: {error.text}"

def same : Fault → Fault → Bool
  | .file first, .file second => first.kind == second.kind
  | first, second => first == second

end Fault

/-- Where a fault was found. Line 0 stands for the file as a whole. -/
structure Location where
  file : String
  line : Nat
deriving DecidableEq

namespace Location

/-- The place of a fault that concerns no line in particular. -/
def wholeFile (file : String) : Location := ⟨file, 0⟩

def text (location : Location) : String :=
  if location.line = 0 then location.file else s!"{location.file}:{location.line}"

/-- Whether two locations are the same place, the files compared as paths. -/
def same (first second : Location) : Bool :=
  first.line == second.line && Path.same first.file second.file

end Location

structure SourceError where
  location : Location
  fault : Fault
deriving DecidableEq

namespace SourceError

/-- How an error is shown in a terminal: the place in bold red, the wording
bold, and then plain text again. -/
def display (error : SourceError) : String :=
  s!"\x1b[31;49;1m[{error.location.text}]\x1b[39;49;1m  {error.fault.message}\x1b[0m"

/-- Whether two errors are of the same kind at the same place. -/
def same (first second : SourceError) : Bool :=
  first.location.same second.location && first.fault.same second.fault

def isFileError (error : SourceError) : Bool :=
  match error.fault with
  | .file _ => true
  | _ => false

end SourceError

end AmbiguitySearch
