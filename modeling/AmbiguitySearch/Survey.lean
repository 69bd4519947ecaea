import AmbiguitySearch.Search.Machine
import AmbiguitySearch.Vocabulary

/-!
# Surveying a grammar for an ambiguous word

A survey searches one word of the vocabulary after the other, in shortlex
order, and stops at the first that is ambiguous, at the first whose search is
aborted, or past the longest length asked for. Its `Verdict` says which, and
claims no more than what was tested: finding no ambiguous word up to a length
is no proof that there is none.

One rule order serves the whole survey, its state going on from word to word.
-/

namespace AmbiguitySearch

inductive Verdict where
  /-- The grammar derives no word at all. That counts as ambiguous, because
  there is no word to tell its derivations apart. -/
  | emptyVocabulary
  /-- The word has two derivations. -/
  | ambiguous (word : Form) (first second : Trace)
  /-- No word up to the length has two derivations. -/
  | notAmbiguous (maxLength wordsTested : Nat)
  /-- The search for the word ran out of steps. -/
  | inconclusive (word : Form) (depthLimit : Nat)
deriving DecidableEq

structure Survey (σ : Type) where
  grammar : Grammar
  order : RuleOrder σ
  /-- How many steps a derivation may have before its search gives up. -/
  depthLimit : Nat
  /-- The length of the longest words to be tested. -/
  maxLength : Nat

namespace Survey

variable {σ β ε : Type}

def search (survey : Survey σ) (word : Form) : Search σ where
  grammar := survey.grammar
  order := survey.order
  depthLimit := survey.depthLimit
  word := word

/-- Goes on with the words of a vocabulary after `tested` words, showing every
outcome to `observe` before acting on it. An observer may refuse an outcome, and
then the survey is over without a verdict. -/
def proceed (survey : Survey σ) (observe : β → Form → Outcome → Except ε β)
    (vocabulary : Vocabulary) (source : σ) (tested : Nat) (seen : β) : Except ε (β × Verdict) :=
  match _next : vocabulary.next? with
  | none => .ok (seen, .notAmbiguous survey.maxLength tested)
  | some (word, rest) =>
    if _fits : word.length ≤ survey.maxLength then
      match (survey.search word).run source with
      | (outcome, source) =>
        match observe seen word outcome with
        | .error refusal => .error refusal
        | .ok seen =>
          match outcome with
          | .aborted depthLimit => .ok (seen, .inconclusive word depthLimit)
          | .found ⟨_, [first, second], _⟩ => .ok (seen, .ambiguous word first second)
          | .found _ => survey.proceed observe rest source (tested + 1) seen
    else .ok (seen, .notAmbiguous survey.maxLength tested)
termination_by vocabulary.remaining survey.maxLength
decreasing_by exact Vocabulary.remaining_lt_of_next? _next _fits

/-- The survey from the start, with everything that `observe` makes of the
outcomes. A grammar that derives no word is not searched at all. -/
def observed (survey : Survey σ) (observe : β → Form → Outcome → Except ε β) (source : σ)
    (seen : β) : Except ε (β × Verdict) :=
  if survey.grammar.vocabularyEmpty then .ok (seen, .emptyVocabulary)
  else survey.proceed observe (.ofGrammar survey.grammar) source 0 seen

/-- The survey with an observer that refuses nothing. -/
def observedAll (survey : Survey σ) (observe : β → Form → Outcome → β) (source : σ)
    (seen : β) : β × Verdict :=
  match survey.observed (fun seen word outcome => .ok (observe seen word outcome)) source seen with
  | .ok result => result
  | .error (refusal : Empty) => nomatch refusal

def verdict (survey : Survey σ) (source : σ) : Verdict :=
  (survey.observedAll (fun seen _ _ => seen) source ()).2

/-- The words tested, in order, each with its outcome. -/
def outcomes (survey : Survey σ) (source : σ) : List (Form × Outcome) :=
  (survey.observedAll (fun seen word outcome => seen.push (word, outcome)) source #[]).1.toList

end Survey

end AmbiguitySearch
