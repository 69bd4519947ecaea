import AmbiguitySearch.CommandLine.Usage

/-!
# Understanding the arguments

Arguments are taken from left to right. An option may carry its value
(`--seed=1`, `-d40`, `-s=A`) or be followed by it; flags may be run together
with each other and with one last option (`-vd30`); after `--` everything is a
file or a length.

A value that stands as an argument of its own is held back and looked at when
the next argument that the program knows begins, or when there are no more
arguments (`settle`). So of several errors the one that is met first counts,
except that an argument which the program does not know is reported before a
value held back.
-/

namespace AmbiguitySearch.CommandLine

/-- How the program was called. -/
structure Options where
  file : String
  maxLength : Nat
  start? : Option String
  seed? : Option Nat
  depthLimit : Nat
  verbose : Bool
deriving DecidableEq

/-- How many steps a derivation may have when nothing is said about it. -/
def defaultDepthLimit : Nat := 2000

/-- The arguments understood so far. -/
structure Draft where
  file? : Option String := none
  maxLength? : Option Nat := none
  start? : Option String := none
  seed? : Option Nat := none
  depthLimit? : Option Nat := none
  verbose : Bool := false

/-- What ends the understanding of arguments. -/
inductive Stop where
  | help
  | version
  | misuse (error : UsageError)
deriving DecidableEq

/-- Understanding under way. -/
structure Progress where
  draft : Draft := {}
  /-- An argument that has begun, with the value held back for it, if that has
  been met yet. -/
  pending? : Option (Slot × Option String) := none
  /-- How many arguments have been taken for a file or a length. -/
  positionals : Nat := 0
  /-- Whether `--` has been met. -/
  literal : Bool := false

namespace Draft

/-- Refuses to fill a slot twice. -/
def once {α : Type} (slot : Slot) : Option α → Except Stop Unit
  | none => .ok ()
  | some _ => .error (.misuse (.repeated slot.label))

/-- Reads the value of a slot as a number. -/
def number (slot : Slot) (value : String) : Except Stop Nat :=
  match readNumber value with
  | .ok number => .ok number
  | .error fault => .error (.misuse (.malformed slot value fault))

/-- Puts a value in its slot. A slot that is filled already counts before a
value that is no number. -/
def assign (draft : Draft) : Slot → String → Except Stop Draft
  | .file, value =>
    if value.isEmpty then .error (.misuse (.missingValue .file))
    else .ok { draft with file? := some value }
  | .maxLength, value => do
    return { draft with maxLength? := some (← number .maxLength value) }
  | .start, value => do
    once .start draft.start?
    return { draft with start? := some value }
  | .seed, value => do
    once .seed draft.seed?
    return { draft with seed? := some (← number .seed value) }
  | .depthLimit, value => do
    once .depthLimit draft.depthLimit?
    return { draft with depthLimit? := some (← number .depthLimit value) }

/-- The call that a draft amounts to. -/
def options (draft : Draft) : Except Stop Options :=
  match draft.file?, draft.maxLength? with
  | some file, some maxLength =>
    .ok { file, maxLength, start? := draft.start?, seed? := draft.seed?,
          depthLimit := draft.depthLimit?.getD defaultDepthLimit, verbose := draft.verbose }
  | some _, none => .error (.misuse (.missingArguments [.maxLength]))
  | none, _ => .error (.misuse (.missingArguments [.file, .maxLength]))

end Draft

namespace Progress

/-- Looks at the value held back. -/
def settle (progress : Progress) : Except Stop Progress := do
  match progress.pending? with
  | none => return progress
  | some (slot, none) => throw (.misuse (.missingValue slot))
  | some (slot, some value) =>
    return { progress with draft := ← progress.draft.assign slot value, pending? := none }

/-- Begins an argument that carries its value or is followed by it. -/
def beginSlot (progress : Progress) (slot : Slot) (value? : Option String) :
    Except Stop Progress := do
  let settled ← progress.settle
  match value? with
  | none => return { settled with pending? := some (slot, none) }
  | some value => return { settled with draft := ← settled.draft.assign slot value }

def raise (progress : Progress) (flag : Flag) : Except Stop Progress := do
  let settled ← progress.settle
  match flag with
  | .help => throw .help
  | .version => throw .version
  | .verbose =>
    if settled.draft.verbose then throw (.misuse (.repeated flag.label))
    return { settled with draft := { settled.draft with verbose := true } }

def positional (progress : Progress) (argument : String) : Except Stop Progress := do
  let slot ← match progress.positionals with
    | 0 => pure Slot.file
    | 1 => pure Slot.maxLength
    | _ => throw (.misuse (.unexpectedArgument argument))
  let settled ← progress.settle
  return { settled with
    pending? := some (slot, some argument), positionals := progress.positionals + 1 }

/-- Takes an argument that begins with two dashes, which are left out here. -/
def long (progress : Progress) (text : List Char) : Except Stop Progress :=
  let name := String.ofList (text.takeWhile (· != '='))
  let value? := match text.dropWhile (· != '=') with
    | [] => none
    | _ :: value => some (String.ofList value)
  let flagged := fun flag : Flag => match value? with
    | none => progress.raise flag
    | some value => .error (.misuse (.unexpectedValue flag value))
  match name with
  | "start" => progress.beginSlot .start value?
  | "seed" => progress.beginSlot .seed value?
  | "depth-limit" => progress.beginSlot .depthLimit value?
  | "verbose" => flagged .verbose
  | "help" => flagged .help
  | "version" => flagged .version
  | _ => .error (.misuse (.unexpectedArgument ("--" ++ name)))

/-- The value that follows a letter in the same argument, after an equals sign
or at once. -/
def attached? : List Char → Option String
  | [] => none
  | '=' :: value => some (String.ofList value)
  | value => some (String.ofList value)

/-- Takes the letters of an argument that begins with one dash. -/
def short (progress : Progress) : List Char → Except Stop Progress
  | [] => .ok progress
  | 's' :: value => progress.beginSlot .start (attached? value)
  | 'd' :: value => progress.beginSlot .depthLimit (attached? value)
  | 'v' :: letters => do (← progress.raise .verbose).short letters
  | 'h' :: _ => progress.raise .help
  | 'V' :: _ => progress.raise .version
  | letter :: _ => .error (.misuse (.unexpectedArgument (String.ofList ['-', letter])))

/-- Takes an argument that is neither `--` nor looks like an option: the value
that an option waits for, or else a file or a length. -/
def plain (progress : Progress) (argument : String) : Except Stop Progress :=
  match progress.pending? with
  | some (slot, none) => .ok { progress with pending? := some (slot, some argument) }
  | _ => progress.positional argument

def take (progress : Progress) (argument : String) : Except Stop Progress :=
  if progress.literal then progress.positional argument
  else
    match argument.toList with
    | ['-', '-'] => .ok { progress with literal := true }
    | '-' :: '-' :: text => progress.long text
    | '-' :: letter :: letters => progress.short (letter :: letters)
    | _ => progress.plain argument

end Progress

def parse (arguments : List String) : Except Stop Options := do
  let progress ← arguments.foldlM Progress.take {}
  (← progress.settle).draft.options

end AmbiguitySearch.CommandLine
