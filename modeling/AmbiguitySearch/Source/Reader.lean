import AmbiguitySearch.Source.Line
import AmbiguitySearch.Text.Lines

/-!
# Reading a grammar file

`Source.read` reads a whole source. Every bad line is reported, each at its
number, lines being counted from 1 and all of them counted. Only if every line
is good is the source looked at as a whole: it must define something, it must
not define `epsilon`, and it must define the start symbol if one is asked for.
-/

namespace AmbiguitySearch.Source

/-- A definition and the number of its line. -/
structure Placed where
  line : Nat
  definition : Definition

/-- The definition on a line of bytes, if the line is one that defines. -/
def readLine (bytes : List UInt8) : Except Fault (Option Definition) :=
  match Text.decode? bytes with
  | none => .error (.file .notText)
  | some text => Definition.ofLine text.toList

/-- Puts a fault of a line in its place. That a line is no text is a failure to
read the file and concerns the file as a whole. -/
def placeFault (path : String) (line : Nat) : Fault → SourceError
  | .file error => ⟨.wholeFile path, .file error⟩
  | fault => ⟨⟨path, line⟩, fault⟩

/-- What the lines of a source come to, without those that define nothing. -/
def readLines (path : String) (bytes : List UInt8) : List (Except SourceError Placed) :=
  ((Text.lines bytes).zipIdx 1).filterMap fun (bytes, line) =>
    match readLine bytes with
    | .error fault => some (.error (placeFault path line fault))
    | .ok none => none
    | .ok (some definition) => some (.ok { line, definition })

def errors {α : Type} (results : List (Except SourceError α)) : List SourceError :=
  results.filterMap fun
    | .error error => some error
    | .ok _ => none

def values {α : Type} (results : List (Except SourceError α)) : List α :=
  results.filterMap fun
    | .error _ => none
    | .ok value => some value

/-- What is wrong with definitions that are all well formed. -/
def wholeFaults (path : String) (placed : List Placed) : List SourceError :=
  if placed.isEmpty then [⟨.wholeFile path, .emptyGrammar⟩]
  else
    (placed.filter (·.definition.name == epsilon)).map fun { line, .. } =>
      ⟨⟨path, line⟩, .epsilonDefined⟩

/-- The grammar of well-formed definitions, with the start symbol asked for. -/
def assemble (path : String) (start? : Option String) (placed : List Placed) :
    Except (List SourceError) Grammar :=
  match wholeFaults path placed with
  | [] =>
    let grammar := Grammar.ofDefinitions (placed.map (·.definition))
    match start? with
    | none => .ok grammar
    | some start =>
      match grammar.withStart? start with
      | some grammar => .ok grammar
      | none => .error [⟨.wholeFile path, .undefinedStart start⟩]
  | faults => .error faults

def read (path : String) (bytes : List UInt8) (start? : Option String) :
    Except (List SourceError) Grammar :=
  let results := readLines path bytes
  match errors results with
  | [] => assemble path start? (values results)
  | faults => .error faults

/-- Reads a file, given what comes of opening it. A file that is no text from
beginning to end is one error, however many of its lines are bad. -/
def load (path : String) (contents : Except FileError (List UInt8))
    (start? : Option String) : Except (List SourceError) Grammar :=
  let unreadable := fun error => [⟨.wholeFile path, .file error⟩]
  match contents with
  | .error error => .error (unreadable error)
  | .ok bytes =>
    match Text.decode? bytes with
    | none => .error (unreadable .notText)
    | some _ => read path bytes start?

end AmbiguitySearch.Source
