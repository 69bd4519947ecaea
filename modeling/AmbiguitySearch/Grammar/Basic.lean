import AmbiguitySearch.Grammar.Nullable

/-!
# The grammar table

A `Grammar` keeps the names of its terminals and nonterminals, the bodies of
every nonterminal and the start symbol. Symbols refer to the tables by
position.

Two kinds of look-up serve two kinds of caller. The search asks about symbols
it took from the table itself, so `bodies` and `isNullable` are total and say
"no bodies" and "not nullable" of anything unknown. A caller who brings symbols
of its own gets an `OutOfRange` from `declaredBodies`, `nullability` and the
spelling functions, naming the table's size and the position it lacks.
-/

namespace AmbiguitySearch

/-- A position beyond the end of a table. -/
structure OutOfRange where
  /-- The number of entries of the table. -/
  size : Nat
  /-- The position asked for. -/
  index : Nat
deriving DecidableEq

def OutOfRange.message (miss : OutOfRange) : String :=
  s!"index out of bounds: the len is {miss.size} but the index is {miss.index}"

/-- Reads a table at a position that may lie beyond its end. -/
def entry {α : Type} (table : List α) (index : Nat) : Except OutOfRange α :=
  match table[index]? with
  | some found => .ok found
  | none => .error ⟨table.length, index⟩

theorem entry_eq_ok_iff {α : Type} {table : List α} {index : Nat} {found : α} :
    entry table index = .ok found ↔ table[index]? = some found := by
  unfold entry
  split <;> simp_all

/-- The symbol that a name stands for in a pair of tables. Nonterminals come
first. -/
def lookUp (nonterminals terminals : List String) (name : String) : Option Symbol :=
  match nonterminals.idxOf? name with
  | some id => some (.nonterminal id)
  | none => (terminals.idxOf? name).map .terminal

/-- A context-free grammar with its derived facts. The nullable flags are kept
beside the rules because every visit of the search asks for them. -/
structure Grammar where
  terminals : List String
  nonterminals : List String
  /-- The bodies of each nonterminal, in the order of `nonterminals`. -/
  rules : List (List Form)
  /-- The start symbol, as a position in `nonterminals`. -/
  start : Nat
  /-- For each nonterminal, whether it derives the empty form. An array, since
  the search asks for every symbol of every form it visits. -/
  nullable : Array Bool := nullableFlags rules
  /-- The flags are those of the rules. -/
  nullable_eq : nullable = nullableFlags rules := by rfl
deriving DecidableEq

namespace Grammar

def startSymbol (g : Grammar) : Symbol := .nonterminal g.start

/-- All terminals in the order of their table, which is the order that words
are enumerated in. -/
def alphabet (g : Grammar) : List Symbol :=
  (List.range g.terminals.length).map .terminal

/-- The bodies of a nonterminal; none if there is no such nonterminal. -/
def bodies (g : Grammar) (nonterminal : Nat) : List Form :=
  g.rules.getD nonterminal []

/-- Whether a symbol can vanish. Terminals and unknown nonterminals cannot. -/
def isNullable (g : Grammar) : Symbol → Bool
  | .terminal _ => false
  | .nonterminal id => g.nullable.getD id false

/-- The flag of a nonterminal is the one computed from the rules. -/
theorem isNullable_nonterminal (g : Grammar) (id : Nat) :
    g.isNullable (.nonterminal id) = (nullableFlags g.rules).getD id false := by
  rw [isNullable, g.nullable_eq]

/-- With neither a terminal nor an empty body there is no word to derive. -/
def vocabularyEmpty (g : Grammar) : Bool :=
  g.terminals.isEmpty && !g.rules.any fun bodies => bodies.any (·.isEmpty)

def symbol? (g : Grammar) (name : String) : Option Symbol :=
  lookUp g.nonterminals g.terminals name

/-- Moves the start to the nonterminal of that name, if there is one. -/
def withStart? (g : Grammar) (name : String) : Option Grammar :=
  (g.nonterminals.idxOf? name).map fun id => { g with start := id }

/-- The bodies of a nonterminal that the grammar has to declare. -/
def declaredBodies (g : Grammar) (nonterminal : Nat) : Except OutOfRange (List Form) :=
  entry g.rules nonterminal

/-- Whether a symbol can vanish, asked of a nonterminal that the grammar has
to declare. No terminal vanishes, declared or not. -/
def nullability (g : Grammar) : Symbol → Except OutOfRange Bool
  | .terminal _ => .ok false
  | .nonterminal id => do
    let _ ← g.declaredBodies id
    return g.isNullable (.nonterminal id)

/-- The largest number of bodies that one nonterminal has. -/
def widestChoice (g : Grammar) : Nat :=
  g.rules.foldr (fun bodies widest => max bodies.length widest) 0

theorem length_bodies_le_widestChoice (g : Grammar) (nonterminal : Nat) :
    (g.bodies nonterminal).length ≤ g.widestChoice := by
  unfold bodies widestChoice
  induction g.rules generalizing nonterminal with
  | nil => simp
  | cons first rest widest =>
    cases nonterminal with
    | zero => exact Nat.le_max_left ..
    | succ nonterminal => exact Nat.le_trans (widest nonterminal) (Nat.le_max_right ..)

end Grammar

end AmbiguitySearch
