import AmbiguitySearch.Proofs.Source.Format

/-!
# Layout does not matter

Lines that say nothing can be put in anywhere, and a line may end either way. What is read
stays the same, but for the numbers of the lines below one that was put in. That includes
sources that are no text, and every error: those of single lines as well as those of the
source as a whole, whose line is 0 wherever they come from.

Both follow from what the reader makes of the pieces between newlines (`readLines_eq`). A line
put in is one more piece, of which it makes nothing, and raises the numbers of all pieces
behind it (`readLines_inserted`). A carriage return before a newline is one more character at
the end of a piece, of which it takes no notice (`readLines_reended`).

> `read_layout`: the two of them for the result of reading.
-/

namespace AmbiguitySearch

namespace Source

/-! ## Lines that move -/

/-- Where a line number goes when a line is put in behind the first `above` lines. The number
0 stands for no line and stays. -/
def lowered (above number : Nat) : Nat := if above < number then number + 1 else number

end Source

def SourceError.lowered (above : Nat) (error : SourceError) : SourceError :=
  { error with location.line := Source.lowered above error.location.line }

namespace Source

variable {path : String} {above number : Nat} {front back bytes bytes' : List UInt8}

def Placed.lowered (above : Nat) (placed : Placed) : Placed :=
  { placed with line := Source.lowered above placed.line }

def loweredResult (above : Nat) : Except SourceError Placed → Except SourceError Placed
  | .error error => .error (error.lowered above)
  | .ok placed => .ok (placed.lowered above)

theorem lowered_of_lt (h : above < number) : lowered above number = number + 1 := if_pos h

theorem lowered_of_le (h : number ≤ above) : lowered above number = number :=
  if_neg (Nat.not_lt.mpr h)

theorem placeFault_lowered (fault : Fault) :
    placeFault path (lowered above number) fault = (placeFault path number fault).lowered above := by
  cases fault <;> rfl

/-- A line is read in the same way wherever it is. -/
theorem readPlaced_lowered (piece : List UInt8) :
    readPlaced path (lowered above number) piece =
      (readPlaced path number piece).map (loweredResult above) := by
  unfold readPlaced
  cases readLine piece with
  | error fault =>
    dsimp only
    rw [placeFault_lowered]
    rfl
  | ok definition? => cases definition? <;> rfl

/-- Pieces that are not behind the line put in. -/
theorem filterMap_readPlaced_above (path : String) {above first : Nat}
    (pieces : List (List UInt8)) (h : first + pieces.length ≤ above + 1) :
    (pieces.zipIdx first).filterMap (fun piece => readPlaced path piece.2 piece.1) =
      ((pieces.zipIdx first).filterMap fun piece => readPlaced path piece.2 piece.1).map
        (loweredResult above) := by
  rw [List.map_filterMap]
  refine List.filterMap_congr fun piece hmem => ?_
  have hlt := List.snd_lt_of_mem_zipIdx hmem
  rw [← readPlaced_lowered, lowered_of_le (by omega)]

/-- Pieces behind it. -/
theorem filterMap_readPlaced_below (path : String) {above first : Nat}
    (pieces : List (List UInt8)) (h : above < first) :
    (pieces.zipIdx (first + 1)).filterMap (fun piece => readPlaced path piece.2 piece.1) =
      ((pieces.zipIdx first).filterMap fun piece => readPlaced path piece.2 piece.1).map
        (loweredResult above) := by
  rw [List.map_filterMap, List.zipIdx_succ, List.filterMap_map]
  refine List.filterMap_congr fun piece hmem => ?_
  have hle := List.le_snd_of_mem_zipIdx hmem
  rw [← readPlaced_lowered, lowered_of_lt (by omega)]
  rfl

/-! ## Reading lines that have moved -/

theorem errors_loweredResult (above : Nat) (results : List (Except SourceError Placed)) :
    errors (results.map (loweredResult above)) = (errors results).map (·.lowered above) := by
  rw [errors, errors, List.filterMap_map, List.map_filterMap]
  refine List.filterMap_congr fun result _ => ?_
  cases result <;> rfl

theorem values_loweredResult (above : Nat) (results : List (Except SourceError Placed)) :
    values (results.map (loweredResult above)) = (values results).map (·.lowered above) := by
  rw [values, values, List.filterMap_map, List.map_filterMap]
  refine List.filterMap_congr fun result _ => ?_
  cases result <;> rfl

theorem wholeFaults_lowered (path : String) (above : Nat) (placed : List Placed) :
    wholeFaults path (placed.map (·.lowered above)) =
      (wholeFaults path placed).map (·.lowered above) := by
  unfold wholeFaults
  cases placed with
  | nil => rfl
  | cons first placed =>
    rw [if_neg (by simp), if_neg (by simp), List.filter_map, List.map_map, List.map_map]
    rfl

/-- What is defined does not depend on where. -/
theorem assemble_lowered (path : String) (above : Nat) (start? : Option String)
    (placed : List Placed) : assemble path start? (placed.map (·.lowered above)) =
      (assemble path start? placed).mapError (List.map (·.lowered above)) := by
  have hdefinitions : (placed.map (·.lowered above)).map (·.definition) =
      placed.map (·.definition) := by
    rw [List.map_map]
    rfl
  unfold assemble
  rw [wholeFaults_lowered, hdefinitions]
  cases wholeFaults path placed with
  | cons fault faults => rfl
  | nil =>
    cases start? with
    | none => rfl
    | some start =>
      rw [List.map_nil]
      dsimp only
      cases (Grammar.ofDefinitions (placed.map (·.definition))).withStart? start <;> rfl

/-- If the lines come to the same elsewhere, so does the source. -/
theorem read_of_readLines_eq (start? : Option String)
    (h : readLines path bytes' = (readLines path bytes).map (loweredResult above)) :
    read path bytes' start? =
      (read path bytes start?).mapError (List.map (·.lowered above)) := by
  unfold read
  dsimp only
  rw [h, errors_loweredResult, values_loweredResult, assemble_lowered]
  cases errors (readLines path bytes) <;> rfl

/-! ## A line put in -/

/-- A place where a line can be put in: the very beginning, or behind a newline. -/
def AtLineStart (front : List UInt8) : Prop := front = [] ∨ front.getLast? = some Text.newline

/-- A line that is blank, or a comment behind blanks. -/
inductive SaysNothing : List Char → Prop where
  | blank {blanks : List Char} (blank : ∀ c ∈ blanks, Text.isBlank c = true) :
    SaysNothing blanks
  | comment {blanks : List Char} (blank : ∀ c ∈ blanks, Text.isBlank c = true)
      (comment : List Char) : SaysNothing (blanks ++ ';' :: comment)

theorem SaysNothing.isRuleLine_eq_false {line : List Char} (h : SaysNothing line) :
    isRuleLine line = false := by
  have hnone : ∀ {blanks : List Char}, (∀ c ∈ blanks, Text.isBlank c = true) →
      blanks.find? (!Text.isBlank ·) = none := by
    intro blanks hblanks
    rw [List.find?_eq_none]
    intro c hc
    simp [hblanks c hc]
  unfold isRuleLine
  cases h with
  | blank hblanks =>
    rw [hnone hblanks]
    rfl
  | comment hblanks =>
    rw [List.find?_append, hnone hblanks, Option.none_or, List.find?_cons_of_pos (by decide)]
    rfl

theorem length_splitOn {α : Type} [DecidableEq α] (separator : α) (items : List α) :
    (items.splitOn separator).length = items.count separator + 1 := by
  induction items with
  | nil => rfl
  | cons item items ih =>
    rw [List.splitOn_cons_eq_if_modifyHead, List.count_cons]
    split
    next => rw [List.length_cons, ih]
    next => rw [List.length_modifyHead, ih, Nat.add_zero]

/-- Up to the start of a line there are as many pieces as newlines. -/
theorem AtLineStart.exists_pieces (h : AtLineStart front) :
    ∃ pieces : List (List UInt8), pieces.length = front.count Text.newline ∧
      ∀ rest, (front ++ rest).splitOn Text.newline = pieces ++ rest.splitOn Text.newline := by
  rcases h with rfl | hlast
  · exact ⟨[], rfl, fun _ => rfl⟩
  · obtain ⟨init, rfl⟩ := List.getLast?_eq_some_iff.mp hlast
    refine ⟨init.splitOn Text.newline, ?_, fun rest => ?_⟩
    · rw [length_splitOn, List.count_append, List.count_singleton_self]
    · rw [List.append_assoc, List.singleton_append, List.splitOn_append_cons_self]

/-- **A line that says nothing** does nothing but move the lines behind it. -/
theorem readLines_inserted (path : String) (back : List UInt8) {line : List Char}
    (hfront : AtLineStart front) (hline : '\n' ∉ line) (hnothing : SaysNothing line) :
    readLines path (front ++ (Text.encode line ++ Text.newline :: back)) =
      (readLines path (front ++ back)).map (loweredResult (front.count Text.newline)) := by
  obtain ⟨pieces, hlength, hpieces⟩ := hfront.exists_pieces
  have hnone : readPlaced path (1 + pieces.length) (Text.encode line) = none := by
    rw [readPlaced_encode, ruleLine?, hnothing.isRuleLine_eq_false]
    rfl
  have hlast : 1 + pieces.length ≤ pieces.length + 1 := by omega
  have hnext : pieces.length < 1 + pieces.length := by omega
  have habove := filterMap_readPlaced_above path pieces hlast
  have hbelow := filterMap_readPlaced_below path (back.splitOn Text.newline) hnext
  rw [readLines_eq, readLines_eq, hpieces, hpieces,
    List.splitOn_append_cons_self_of_not_mem (Text.newline_notMem_encode hline),
    List.zipIdx_append, List.zipIdx_append, List.zipIdx_cons, List.filterMap_append,
    List.filterMap_append, List.filterMap_cons, hnone, List.map_append, ← hlength, ← habove,
    ← hbelow]

/-! ## The ends of lines -/

/-- The same lines, some of which end by a carriage return and a newline where they ended by a
newline. -/
inductive Reended : List UInt8 → List UInt8 → Prop where
  | nil : Reended [] []
  | same (byte : UInt8) {rest rest' : List UInt8} (later : Reended rest rest') :
    Reended (byte :: rest) (byte :: rest')
  | reended {rest rest' : List UInt8} (later : Reended rest rest') :
    Reended (Text.newline :: rest) (Text.carriageReturn :: Text.newline :: rest')

/-- Piece by piece, there is at most a carriage return more at the end. -/
theorem Reended.forall₂_splitOn (h : Reended bytes bytes') :
    List.Forall₂ (fun piece piece' => piece' = piece ∨ piece' = piece ++ [Text.carriageReturn])
      (bytes.splitOn Text.newline) (bytes'.splitOn Text.newline) := by
  induction h with
  | nil => exact .cons (.inl rfl) .nil
  | @same byte rest rest' _ ih =>
    rw [List.splitOn_cons_eq_if_modifyHead, List.splitOn_cons_eq_if_modifyHead]
    generalize rest.splitOn Text.newline = pieces at ih
    generalize rest'.splitOn Text.newline = pieces' at ih
    split
    next => exact .cons (.inl rfl) ih
    next =>
      cases ih with
      | nil => exact .nil
      | cons hfirst hrest =>
        refine .cons ?_ hrest
        rcases hfirst with rfl | rfl
        · exact .inl rfl
        · exact .inr rfl
  | @reended rest rest' _ ih =>
    have hempty : Text.newline ∉ ([] : List UInt8) := List.not_mem_nil
    have hend : Text.newline ∉ [Text.carriageReturn] := by decide
    have hfirst : (Text.newline :: rest).splitOn Text.newline = [] :: rest.splitOn Text.newline :=
      List.splitOn_append_cons_self_of_not_mem hempty rest
    have hfirst' : (Text.carriageReturn :: Text.newline :: rest').splitOn Text.newline =
        [Text.carriageReturn] :: rest'.splitOn Text.newline :=
      List.splitOn_append_cons_self_of_not_mem hend rest'
    rw [hfirst, hfirst']
    exact .cons (.inr rfl) ih

/-- **How lines end** makes no difference to any of them. -/
theorem readLines_reended (path : String) (h : Reended bytes bytes') :
    readLines path bytes' = readLines path bytes := by
  have hpieces : ∀ {pieces pieces' : List (List UInt8)},
      List.Forall₂ (fun piece piece' => piece' = piece ∨ piece' = piece ++ [Text.carriageReturn])
        pieces pieces' → ∀ first : Nat,
      (pieces'.zipIdx first).filterMap (fun piece => readPlaced path piece.2 piece.1) =
        (pieces.zipIdx first).filterMap fun piece => readPlaced path piece.2 piece.1 := by
    intro pieces pieces' hsame
    induction hsame with
    | nil => exact fun _ => rfl
    | @cons piece piece' pieces pieces' hpiece _ ih =>
      intro first
      have hread : readPlaced path first piece' = readPlaced path first piece := by
        rcases hpiece with rfl | rfl
        · rfl
        · exact readPlaced_concat_carriageReturn path first piece
      rw [List.zipIdx_cons, List.zipIdx_cons, List.filterMap_cons, List.filterMap_cons, hread, ih]
  rw [readLines_eq, readLines_eq]
  exact hpieces h.forall₂_splitOn 1

/-- **Layout does not matter.** With a blank line or a comment put in at the start of a line,
a source is accepted with the same grammar, or has the same errors in the same order, those of
lines behind the one put in one line further down. With lines that end by a carriage return
and a newline in place of a newline, the result is the same. Neither source needs to be text. -/
theorem read_layout (path : String) (start? : Option String) :
    (∀ front back line, AtLineStart front → '\n' ∉ line → SaysNothing line →
      read path (front ++ (Text.encode line ++ Text.newline :: back)) start? =
        (read path (front ++ back) start?).mapError
          (List.map (·.lowered (front.count Text.newline)))) ∧
    ∀ bytes bytes', Reended bytes bytes' → read path bytes' start? = read path bytes start? := by
  refine ⟨fun front back line hfront hline hnothing => ?_, fun bytes bytes' h => ?_⟩
  · exact read_of_readLines_eq start? (readLines_inserted path back hfront hline hnothing)
  · unfold read
    rw [readLines_reended path h]

/-- A comment in front of two bad lines moves the error of the first. The second is no text,
which is an error of the source as a whole, and so it is if its end is another. -/
theorem read_layout_comment :
    read "g" (Text.encode " ; S".toList ++ Text.newline :: [83, 32, 97, 10, 255, 10]) none =
        .error [⟨⟨"g", 2⟩, .missingArrow⟩, ⟨⟨"g", 0⟩, .file .notText⟩] ∧
      read "g" [83, 32, 97, 10, 255, 13, 10] none =
        .error [⟨⟨"g", 1⟩, .missingArrow⟩, ⟨⟨"g", 0⟩, .file .notText⟩] := by
  have hread : read "g" [83, 32, 97, 10, 255, 10] none =
      .error [⟨⟨"g", 1⟩, .missingArrow⟩, ⟨⟨"g", 0⟩, .file .notText⟩] := by decide +kernel
  have hblank : ∀ c ∈ [' '], Text.isBlank c = true := List.forall_mem_singleton.mpr (by decide)
  have hcomment : SaysNothing " ; S".toList := .comment hblank " S".toList
  have hreended : Reended [83, 32, 97, 10, 255, 10] [83, 32, 97, 10, 255, 13, 10] :=
    .same _ (.same _ (.same _ (.same _ (.same _ (.reended .nil)))))
  obtain ⟨hinserted, hends⟩ := read_layout "g" none
  constructor
  · have hmoved := hinserted [] [83, 32, 97, 10, 255, 10] _ (.inl rfl) (by decide) hcomment
    rw [List.nil_append, List.nil_append, hread] at hmoved
    exact hmoved
  · rw [hends _ _ hreended, hread]

end Source

end AmbiguitySearch
