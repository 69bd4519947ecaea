/-!
# Text that leaves the terminal alone

Text from outside may hold control characters and whole control sequences, which
a terminal obeys instead of showing them. `visible` keeps what is shown. It
follows the sequences the way a terminal does:

* the escape character begins a sequence wherever it stands, and the characters
  CAN and SUB end one wherever they stand;
* a sequence may be a short escape, a control sequence with parameters, a
  command that runs up to BEL, or a string of data that runs up to the byte 9C;
* tabs and line ends are shown, within an escape or a control sequence too. There
  they interrupt the sequence: text follows until the next control character,
  which is where the sequence goes on, unless a character beyond ASCII has made
  an end of it.

`visible_sublist` says that nothing is added or moved, and `visible_eq_self` that
text without control characters stays as it is.
-/

namespace AmbiguitySearch.Text

/-- How far a terminal has come in a control sequence. -/
inductive TerminalMode where
  /-- In none: characters are shown. -/
  | text
  /-- Right after the escape character. -/
  | escape
  /-- In an escape that has a mark before its last character. -/
  | marked
  /-- In a control sequence, up to its last character. -/
  | control
  /-- In a command, up to BEL. -/
  | command
  /-- In the header of a string of data. Characters from `first` on end it. -/
  | header (first : Nat)
  /-- In a string of data. -/
  | string
deriving DecidableEq

/-- The control characters that are shown: tab, line feed, form feed and
carriage return. -/
def isSpacing (c : Char) : Bool :=
  c == '\t' || c == '\n' || c == '\x0c' || c == '\x0d'

/-- The characters that are shown outside of control sequences. -/
def isVisible (c : Char) : Bool :=
  isSpacing c || (0x20 ≤ c.toNat && c.toNat ≠ 0x7f)

namespace TerminalMode

/-- Whether spacing is shown in the middle of what the mode stands for. -/
def showsSpacing : TerminalMode → Bool
  | .escape | .marked | .control => true
  | _ => false

/-- The mode after an ASCII character that is printable, in a sequence. -/
def afterPrintable (c : Char) : TerminalMode → TerminalMode
  | .text => .text
  | .escape =>
    if c.toNat < 0x30 then .marked
    else
      match c with
      | '[' => .control
      | ']' => .command
      | 'P' => .header 0x40
      | 'X' | '^' | '_' => .string
      | _ => .text
  | .marked => if c.toNat < 0x30 then .marked else .text
  | .control => if c.toNat < 0x40 then .control else .text
  | .command => .command
  | .header first =>
    if first ≤ c.toNat then .string
    else if c.toNat < 0x30 then .header 0x30
    else .header (min first 0x3c)
  | .string => .string

/-- The mode after a character. A character beyond ASCII only matters to a
string of data, which the byte 9C ends even as a part of a character. -/
def after (c : Char) (mode : TerminalMode) : TerminalMode :=
  if c == '\x18' || c == '\x1a' then .text
  else if c == '\x1b' then .escape
  else if 0x80 ≤ c.toNat then
    if mode = .string ∧ 0x9c ∈ String.utf8EncodeChar c then .text else mode
  else if mode = .command ∧ c = '\x07' then .text
  else if c.toNat < 0x20 || c.toNat == 0x7f then mode
  else mode.afterPrintable c

end TerminalMode

/-- What is shown of a text that a terminal meets in a mode, possibly with the
sequence of that mode interrupted. -/
def visibleFrom : TerminalMode → (interrupted : Bool) → List Char → List Char
  | _, _, [] => []
  | mode, interrupted, c :: rest =>
    if (interrupted || mode == .text) && isVisible c then
      c :: visibleFrom (if c.toNat < 0x80 then mode else .text) true rest
    else if mode.showsSpacing && isSpacing c then c :: visibleFrom mode true rest
    else visibleFrom (mode.after c) false rest

/-- What a terminal shows of a text. -/
def visible (text : String) : String :=
  String.ofList (visibleFrom .text false text.toList)

theorem visibleFrom_sublist : ∀ (mode : TerminalMode) (interrupted : Bool) (text : List Char),
    (visibleFrom mode interrupted text).Sublist text
  | _, _, [] => by simp [visibleFrom]
  | mode, interrupted, c :: rest => by
    unfold visibleFrom
    split
    next => exact (visibleFrom_sublist _ _ rest).cons_cons c
    next =>
      split
      next => exact (visibleFrom_sublist _ _ rest).cons_cons c
      next => exact (visibleFrom_sublist _ _ rest).cons c

/-- What is shown is there, in the same order. -/
theorem visible_sublist (text : String) : (visible text).toList.Sublist text.toList := by
  rw [visible, String.toList_ofList]
  exact visibleFrom_sublist _ _ _

theorem visibleFrom_eq_self : ∀ (interrupted : Bool) {text : List Char},
    (∀ c ∈ text, isVisible c = true) → visibleFrom .text interrupted text = text
  | _, [], _ => rfl
  | interrupted, c :: rest, shown => by
    have first : isVisible c = true := shown c (List.mem_cons_self ..)
    have later := visibleFrom_eq_self true fun d inside => shown d (List.mem_cons_of_mem c inside)
    simp [visibleFrom, first, later]

/-- A text without control characters is shown as it is. -/
theorem visible_eq_self {text : String} (shown : ∀ c ∈ text.toList, isVisible c = true) :
    visible text = text := by
  rw [visible, visibleFrom_eq_self false shown, String.ofList_toList]

end AmbiguitySearch.Text
