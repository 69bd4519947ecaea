import AmbiguitySearch.Grammar.Definition

/-!
# Leftmost derivations

One leftmost step replaces the first nonterminal of a form by one of its
bodies (`Grammar.Expands`), and a leftmost derivation is a chain of such steps
(`Grammar.Derives`). The relations say what a derivation is; a `Trace` is the
record of one, with every form on the way, so that it can be shown. A trace is
plain data: nothing forces its steps to be leftmost steps of any grammar, and
`Grammar.Admits` is the statement that they are.
-/

namespace AmbiguitySearch

/-- One step: the rule applied and the form it produced. -/
structure Step where
  nonterminal : Nat
  body : Form
  form : Form
deriving DecidableEq

/-- A recorded derivation: the form it starts from and its steps in order. -/
structure Trace where
  start : Form
  steps : List Step
deriving DecidableEq

def Trace.result (trace : Trace) : Form :=
  match trace.steps.getLast? with
  | none => trace.start
  | some step => step.form

namespace Grammar

/-- The step replaces the first nonterminal of the form by one of its bodies. -/
inductive Expands (g : Grammar) : Form → Step → Prop where
  | leftmost {before after body : Form} {nonterminal : Nat}
      (settled : ∀ symbol ∈ before, symbol.isTerminal = true)
      (declared : body ∈ g.bodies nonterminal) :
      Expands g (before ++ .nonterminal nonterminal :: after)
        ⟨nonterminal, body, before ++ (body ++ after)⟩

/-- A chain of leftmost steps from one form to another. -/
inductive Derives (g : Grammar) : Form → List Step → Form → Prop where
  | refl (form : Form) : Derives g form [] form
  | step {form target : Form} {first : Step} {rest : List Step}
      (expands : g.Expands form first) (derives : Derives g first.form rest target) :
      Derives g form (first :: rest) target

/-- The trace is a leftmost derivation of the word from the start symbol. -/
def Admits (g : Grammar) (trace : Trace) (word : Form) : Prop :=
  trace.start = [g.startSymbol] ∧ g.Derives [g.startSymbol] trace.steps word

end Grammar

end AmbiguitySearch
