import AmbiguitySearch.Grammar.Basic

/-!
# From definitions to the table

A definition gives a name and its alternatives, all still spelled out as
names. `Grammar.ofDefinitions` turns a list of them into a table:

* the nonterminals are the names defined, each at its first appearance;
* the terminals are the other names used in alternatives, except `epsilon`,
  each at its first appearance;
* definitions of one name are united, `epsilon` is dropped from alternatives,
  and of equal bodies the first one stays;
* the first name defined is the start.

The nonterminals are known before any alternative is read, so that a name can
be used before it is defined. Everything else is collected in one go over the
alternatives: a terminal is numbered when it is first met, and a body joins the
bodies of its nonterminal unless it is one of them.

Nothing is refused. Whether a name may be defined at all is the business of
whoever writes the definitions.
-/

namespace AmbiguitySearch

/-- The name that spells the empty body. -/
def epsilon : String := "epsilon"

/-- One name with its alternatives, each a list of names. -/
structure Definition where
  name : String
  alternatives : List (List String)
deriving DecidableEq

/-- The names defined, each once, in order of first appearance. -/
def Definition.definedNames (definitions : List Definition) : List String :=
  (definitions.map (·.name)).eraseDups

/-- The position of a terminal, and the terminals with it among them. -/
def intern (terminals : List String) (name : String) : Nat × List String :=
  match terminals.idxOf? name with
  | some id => (id, terminals)
  | none => (terminals.length, terminals ++ [name])

/-- The symbol that a name stands for, and the terminals met so far. A name that
is not defined is a terminal. -/
def resolveName (nonterminals terminals : List String) (name : String) : Symbol × List String :=
  match nonterminals.idxOf? name with
  | some id => (.nonterminal id, terminals)
  | none =>
    let (id, met) := intern terminals name
    (.terminal id, met)

/-- The body that an alternative spells, and the terminals met so far. `epsilon`
spells the absence of symbols and is none itself. -/
def resolve (nonterminals terminals : List String) : List String → Form × List String
  | [] => ([], terminals)
  | name :: names =>
    if name = epsilon then resolve nonterminals terminals names
    else
      let (symbol, met) := resolveName nonterminals terminals name
      let (body, met) := resolve nonterminals met names
      (symbol :: body, met)

/-- Bodies form a set. The first of equal ones keeps its place. -/
def insertBody (bodies : List Form) (body : Form) : List Form :=
  if body ∈ bodies then bodies else bodies ++ [body]

/-- The terminals met so far, and the bodies of every nonterminal. -/
structure Collected where
  terminals : List String
  rules : List (List Form)

namespace Collected

def addAlternative (nonterminals : List String) (id : Nat) (collected : Collected)
    (alternative : List String) : Collected :=
  let (body, met) := resolve nonterminals collected.terminals alternative
  { terminals := met, rules := collected.rules.modify id (insertBody · body) }

def addDefinition (nonterminals : List String) (collected : Collected)
    (definition : Definition) : Collected :=
  definition.alternatives.foldl (addAlternative nonterminals (nonterminals.idxOf definition.name))
    collected

end Collected

/-- The table that a list of definitions describes. -/
def Grammar.ofDefinitions (definitions : List Definition) : Grammar :=
  let nonterminals := Definition.definedNames definitions
  let collected := definitions.foldl (Collected.addDefinition nonterminals)
    { terminals := [], rules := List.replicate nonterminals.length [] }
  { terminals := collected.terminals, nonterminals, rules := collected.rules, start := 0 }

end AmbiguitySearch
