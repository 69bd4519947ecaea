import AmbiguitySearch.CommandLine.Arguments
import AmbiguitySearch.Report.Verdict
import AmbiguitySearch.Report.Word
import AmbiguitySearch.Source.Reader

/-!
# What the program answers

`execute` carries out a call, given the contents of the file and a seed for
calls that name none. The exit status tells the verdicts apart: 0 when no
ambiguous word was found, 1 when the grammar is ambiguous, 3 when a search was
aborted; 2 stands for everything that kept the program from searching.
-/

namespace AmbiguitySearch

def Verdict.exitStatus : Verdict → Nat
  | .notAmbiguous .. => 0
  | .ambiguous .. => 1
  | .emptyVocabulary => 1
  | .inconclusive .. => 3

namespace CommandLine

/-- What a call comes to. -/
structure Response where
  exit : Nat
  stdout : String
  stderr : String
deriving DecidableEq

/-- The answer to a call that asks for no search. -/
def Stop.response : Stop → Response
  | .help => { exit := 0, stdout := helpText, stderr := "" }
  | .version => { exit := 0, stdout := versionText, stderr := "" }
  | .misuse error => { exit := 2, stdout := "", stderr := error.display }

/-- The answer to a call with a grammar that cannot be used. How to call the
program is only worth repeating if the file could not be read. -/
def refusal (errors : List SourceError) : Response where
  exit := 2
  stdout := ""
  stderr := String.join (errors.map fun error => error.display ++ "\n") ++
    (if errors.any SourceError.isFileError then usage else "")

/-- The line that begins a detailed report. -/
def loadedText (g : Grammar) (maxLength seed : Nat) : String :=
  s!"Loaded {g.nonterminals.length} nonterminals and {g.terminals.length} terminals, " ++
    s!"testing words up to length {maxLength} (seed {seed})\n"

/-- Surveys a grammar as the options say, reporting on every word if asked to. -/
def survey (options : Options) (g : Grammar) (seed : Nat) : Except RenderError Response := do
  let survey : Survey Xoshiro := {
    grammar := g, order := .shuffled
    depthLimit := options.depthLimit, maxLength := options.maxLength }
  let source := Xoshiro.ofSeed (.ofNat seed)
  let (stderr, verdict) ←
    if options.verbose then
      survey.observed (fun seen word outcome => return seen ++ (← outcome.report g word))
        source (loadedText g options.maxLength seed)
    else pure ("", survey.verdict source)
  let stdout ← verdict.report g
  return { exit := verdict.exitStatus, stdout, stderr }

/-- Carries out a call, given what came of opening the file. -/
def execute (options : Options) (contents : Except FileError (List UInt8)) (randomSeed : Nat) :
    Except RenderError Response :=
  match Source.load options.file contents options.start? with
  | .error errors => .ok (refusal errors)
  | .ok g => survey options g (options.seed?.getD randomSeed)

/-- Answers a call whose file is opened by `read`. -/
def respond (arguments : List String) (read : String → Except FileError (List UInt8))
    (randomSeed : Nat) : Except RenderError Response :=
  match parse arguments with
  | .error stop => .ok stop.response
  | .ok options => execute options (read options.file) randomSeed

end CommandLine

end AmbiguitySearch
