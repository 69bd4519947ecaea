import AmbiguitySearch.Proofs.Source.Format

/-!
# A file as a whole and line by line

There are two ways to have a grammar read. A file is decoded before anything else is done
with it, and is refused as a whole if it is no text. A source is cut into lines first, and
each line that is no text is an error of its own, among those of the lines that are text.

They agree because bytes are text exactly if all their pieces between newlines are
(`Text.decode?_eq_none_iff`): a character that is cut short by a newline, or by the end of
the bytes, spoils its own line only, and every line that is no text spoils the file.

> `load_agrees`: the two accept the same bytes with the same grammar, and tell the same of
> bytes that are text. Of bytes that are none, one has a single error and the other an
> error for each bad line.
-/

namespace AmbiguitySearch.Source

/-- The error that bytes are no text. It concerns the file as a whole, also if it is found
on a line. -/
def notTextError (path : String) : SourceError := ⟨.wholeFile path, .file .notText⟩

/-- What is wrong with a piece between newlines, given its number: it is no text, or it is a
rule line and not in order. -/
def pieceError? (path : String) (piece : List UInt8 × Nat) : Option SourceError :=
  match Text.decode? piece.1 with
  | none => some (notTextError path)
  | some text => (ruleLine? (text.toList, piece.2)).bind (·.error? path)

/-- The errors of all pieces in order. -/
def pieceErrors (path : String) (bytes : List UInt8) : List SourceError :=
  ((bytes.splitOn Text.newline).zipIdx 1).filterMap (pieceError? path)

/-- How many lines are no text. -/
def badLines (bytes : List UInt8) : Nat :=
  (bytes.splitOn Text.newline).countP fun piece => (Text.decode? piece).isNone

/-! ## Line by line -/

theorem errors_readLines (path : String) (bytes : List UInt8) :
    errors (readLines path bytes) = pieceErrors path bytes := by
  rw [readLines_eq, errors, List.filterMap_filterMap, pieceErrors]
  refine List.filterMap_congr fun piece _ => ?_
  unfold pieceError?
  cases htext : Text.decode? piece.1 with
  | none =>
    rw [readPlaced_of_decode?_eq_none path piece.2 htext]
    rfl
  | some text =>
    rw [readPlaced_of_decode?_eq_some path piece.2 htext]
    dsimp only
    cases ruleLine? (text.toList, piece.2) with
    | none => rfl
    | some line =>
      rw [Option.map_some, Option.bind_some, Option.bind_some, RuleLine.result]
      cases line.error? path <;> rfl

/-- A rule line is text, whatever is wrong with it. -/
theorem isFileError_of_error?_eq_some {path : String} {line : RuleLine} {error : SourceError}
    (h : line.error? path = some error) : error.isFileError = false := by
  obtain ⟨fault, hfault, rfl⟩ := Option.map_eq_some_iff.mp h
  have hmem := RuleLine.fault?_mem hfault
  simp only [List.mem_cons, List.not_mem_nil, or_false] at hmem
  rcases hmem with rfl | rfl | rfl | rfl <;> rfl

theorem filter_isFileError_pieceError? (path : String) (piece : List UInt8 × Nat) :
    (pieceError? path piece).toList.filter (·.isFileError) =
      List.replicate (if (Text.decode? piece.1).isNone then 1 else 0) (notTextError path) := by
  unfold pieceError?
  cases Text.decode? piece.1 with
  | none => rfl
  | some text =>
    cases herror : (ruleLine? (text.toList, piece.2)).bind (·.error? path) with
    | none =>
      dsimp only
      rw [herror]
      rfl
    | some error =>
      obtain ⟨line, -, hline⟩ := Option.bind_eq_some_iff.mp herror
      dsimp only
      rw [herror, Option.toList_some, List.filter_cons_of_neg]
      · rfl
      · rw [isFileError_of_error?_eq_some hline]
        nofun

/-- There is one error about a failure to read for each line that is no text. -/
theorem filter_isFileError_pieceErrors (path : String) (bytes : List UInt8) :
    (pieceErrors path bytes).filter (·.isFileError) =
      List.replicate (badLines bytes) (notTextError path) := by
  have hpieces : ∀ (pieces : List (List UInt8)) (number : Nat),
      ((pieces.zipIdx number).filterMap (pieceError? path)).filter (·.isFileError) =
        List.replicate (pieces.countP fun piece => (Text.decode? piece).isNone)
          (notTextError path) := by
    intro pieces
    induction pieces with
    | nil => exact fun _ => rfl
    | cons piece pieces ih =>
      intro number
      rw [List.zipIdx_cons, List.filterMap_eq_flatMap_toList, List.flatMap_cons,
        List.filter_append, ← List.filterMap_eq_flatMap_toList, ih, List.countP_cons,
        filter_isFileError_pieceError?, Nat.add_comm, List.replicate_append_replicate]
  exact hpieces (bytes.splitOn Text.newline) 1

theorem badLines_pos_iff (bytes : List UInt8) : 0 < badLines bytes ↔ Text.decode? bytes = none := by
  rw [badLines, List.countP_pos_iff, Text.decode?_eq_none_iff]
  simp only [Option.isNone_iff_eq_none]

/-- Bytes that are no text are refused. -/
theorem read_of_decode?_eq_none (path : String) {bytes : List UInt8} (start? : Option String)
    (h : Text.decode? bytes = none) : read path bytes start? = .error (pieceErrors path bytes) := by
  have hsome : pieceErrors path bytes ≠ [] := by
    intro hnil
    have hfilter := filter_isFileError_pieceErrors path bytes
    have hpos := (badLines_pos_iff bytes).mpr h
    rw [hnil] at hfilter
    have hlength := congrArg List.length hfilter
    rw [List.length_replicate, List.filter_nil, List.length_nil] at hlength
    omega
  unfold read
  dsimp only
  rw [errors_readLines]
  split
  next hnil => exact absurd hnil hsome
  next => rfl

/-! ## As a whole -/

theorem load_of_decode?_eq_none (path : String) {bytes : List UInt8} (start? : Option String)
    (h : Text.decode? bytes = none) :
    load path (.ok bytes) start? = .error [notTextError path] := by
  unfold load
  dsimp only
  rw [h]
  rfl

theorem load_of_decode?_ne_none (path : String) {bytes : List UInt8} (start? : Option String)
    (h : Text.decode? bytes ≠ none) :
    load path (.ok bytes) start? = read path bytes start? := by
  obtain ⟨text, htext⟩ := Option.ne_none_iff_exists'.mp h
  unfold load
  dsimp only
  rw [htext]

/-- **A file as a whole and line by line.** The bytes of a file and the same bytes as a
source are accepted together, with the same grammar, and if they are text the errors are the
same too. If they are no text, the file is one error, and the source has the errors of its
lines in order, of which one for each line that is no text is a failure to read; there is at
least one such line. -/
theorem load_agrees (path : String) (bytes : List UInt8) (start? : Option String) :
    (∀ g, load path (.ok bytes) start? = .ok g ↔ read path bytes start? = .ok g) ∧
    (Text.decode? bytes ≠ none → load path (.ok bytes) start? = read path bytes start?) ∧
    (Text.decode? bytes = none →
      load path (.ok bytes) start? = .error [notTextError path] ∧
      read path bytes start? = .error (pieceErrors path bytes) ∧
      (pieceErrors path bytes).filter (·.isFileError) =
        List.replicate (badLines bytes) (notTextError path) ∧
      0 < badLines bytes) := by
  refine ⟨fun g => ?_, load_of_decode?_ne_none path start?, fun h =>
    ⟨load_of_decode?_eq_none path start? h, read_of_decode?_eq_none path start? h,
      filter_isFileError_pieceErrors path bytes, (badLines_pos_iff bytes).mpr h⟩⟩
  by_cases h : Text.decode? bytes = none
  · rw [load_of_decode?_eq_none path start? h, read_of_decode?_eq_none path start? h]
    exact ⟨nofun, nofun⟩
  · rw [load_of_decode?_ne_none path start? h]

/-- A line with a byte that no text has, a line without an arrow, and a comment that ends in
the middle of a character. -/
def brokenFile : List UInt8 :=
  Text.encode "S -> a\n".toList ++ 0xff :: Text.newline ::
    (Text.encode "S a\n; ".toList ++ [0xe2, 0x82])

/-- The two bad lines are errors of the whole file around the error of the third line. -/
theorem load_agrees_brokenFile :
    load "g" (.ok brokenFile) none = .error [notTextError "g"] ∧
      read "g" brokenFile none =
        .error [notTextError "g", ⟨⟨"g", 3⟩, .missingArrow⟩, notTextError "g"] := by
  have hbroken : Text.decode? brokenFile = none := by decide +kernel
  have herrors : pieceErrors "g" brokenFile =
      [notTextError "g", ⟨⟨"g", 3⟩, .missingArrow⟩, notTextError "g"] := by decide +kernel
  obtain ⟨hload, hread, -, -⟩ := (load_agrees "g" brokenFile none).2.2 hbroken
  exact ⟨hload, hread.trans (congrArg _ herrors)⟩

end AmbiguitySearch.Source
