/-!
# Symbols and sentential forms

A context-free grammar writes its rules over two tables of names, terminals
and nonterminals. A `Symbol` is a position in one of them; a `Form` is a
sequence of symbols, the empty one standing for the empty word.

Everything the search does to a form goes through two functions.
`firstNonterminal?` finds the symbol a leftmost derivation replaces next, and
`splice` replaces a stretch of the form. `splice` serves in both directions:
applying a rule replaces one symbol by a body, taking it back replaces the
body by one symbol, and `splice_splice` says that the second undoes the first.
-/

namespace AmbiguitySearch

/-- A terminal or a nonterminal, named by its position in the grammar's table.
Positions are not bounded here: a word to be searched for may hold symbols
that no table has. -/
inductive Symbol where
  | terminal (id : Nat)
  | nonterminal (id : Nat)
deriving DecidableEq

/-- Terminals are the symbols that no rule replaces. -/
def Symbol.isTerminal : Symbol → Bool
  | .terminal _ => true
  | .nonterminal _ => false

/-- A sentential form. A word is a form that holds terminals only. -/
abbrev Form := List Symbol

namespace Form

/-- The position and the id of the leftmost nonterminal. -/
def firstNonterminal? : Form → Option (Nat × Nat)
  | [] => none
  | .nonterminal id :: _ => some (0, id)
  | .terminal _ :: rest =>
    match firstNonterminal? rest with
    | none => none
    | some (position, id) => some (position + 1, id)

/-- Replaces the `removed` symbols from `position` on by `body`. -/
def splice (form : Form) (position removed : Nat) (body : Form) : Form :=
  form.take position ++ (body ++ form.drop (position + removed))

/-- Putting back the symbols that a splice took out restores the form. -/
theorem splice_splice {form : Form} {position removed : Nat}
    (inside : position ≤ form.length) (body : Form) :
    (form.splice position removed body).splice position body.length
        ((form.drop position).take removed) = form := by
  have before : (form.take position).length = position := by
    simp [Nat.min_eq_left inside]
  have kept : (form.splice position removed body).take position = form.take position := by
    rw [splice, List.take_append_of_le_length (by omega), List.take_take, Nat.min_self]
  have after : (form.splice position removed body).drop (position + body.length)
      = form.drop (position + removed) := by
    rw [splice, ← List.append_assoc, List.drop_append_of_le_length (by simp [before]),
      List.drop_eq_nil_of_le (by simp [before]), List.nil_append]
  rw [splice, kept, after, ← List.drop_drop, List.take_append_drop, List.take_append_drop]

end Form

end AmbiguitySearch
