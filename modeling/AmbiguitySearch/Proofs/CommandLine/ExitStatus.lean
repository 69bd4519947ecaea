import AmbiguitySearch.CommandLine.Response
import AmbiguitySearch.Proofs.Source.Rules
import AmbiguitySearch.Proofs.Survey.Named

/-!
# From the text of a file to the exit status

Whoever calls the program sees a file and an exit status. In between the file is decoded,
cut into lines and words, numbered, searched and judged. What the status says can be said
without any of that, of the rules that the text states (`Response.Tells`).

> `respond_tells`: the status is 2 exactly if the file is refused, and otherwise it tells
> the truth about the text.
-/

namespace AmbiguitySearch.CommandLine

variable {options : Options} {g : Grammar} {seed : Nat} {response : Response}

/-! ## A call that searches -/

/-- The survey that a call asks for. -/
def surveyOf (options : Options) (g : Grammar) : Survey Xoshiro where
  grammar := g
  order := .shuffled
  depthLimit := options.depthLimit
  maxLength := options.maxLength

/-- With or without reports on the words, the answer gives the verdict. -/
theorem survey_eq_ok (h : survey options g seed = .ok response) :
    ∃ verdict, verdict = ((surveyOf options g).made (Xoshiro.ofSeed (.ofNat seed))).2 ∧
      response.exit = verdict.exitStatus ∧ verdict.report g = .ok response.stdout := by
  unfold survey at h
  split at h
  next =>
    obtain ⟨⟨stderr, verdict⟩, hobserved, h⟩ := bind_eq_ok h
    obtain ⟨stdout, hreport, h⟩ := bind_eq_ok h
    cases h
    rw [Survey.observed_eq] at hobserved
    obtain ⟨seen, -, hrelayed⟩ := bind_eq_ok hobserved
    cases hrelayed
    exact ⟨_, rfl, rfl, hreport⟩
  next =>
    obtain ⟨⟨stderr, verdict⟩, hverdict, h⟩ := bind_eq_ok h
    obtain ⟨stdout, hreport, h⟩ := bind_eq_ok h
    cases h
    cases hverdict
    exact ⟨_, Survey.verdict_eq _ _, rfl, hreport⟩

/-! ## The report that names a word -/

/-- How a string of names is written in a report. -/
def spelling (names : List String) : String :=
  if names = [] then epsilon else " ".intercalate names

/-- The report that a search was given up. -/
def inconclusiveText (depthLimit : Nat) (names : List String) : String :=
  s!"Inconclusive: the {abortMessage depthLimit} while testing the word: {spelling names}\n" ++
    "The recursion depth limit was reached; no ambiguity claim is made.\n"

/-- What is between the spaces of a string of names. -/
theorem splitOn_spelling {names : List String} (h : ∀ name ∈ names, Source.Readable name) :
    (spelling names).toList.splitOn ' ' =
      if names = [] then [epsilon.toList] else names.map String.toList := by
  unfold spelling
  split
  next => rfl
  next hne =>
    rw [String.toList_intercalate]
    refine List.splitOn_intercalate ' ' ?_ (by simpa using hne)
    intro chars hmem
    obtain ⟨name, hname, rfl⟩ := List.mem_map.mp hmem
    exact (h name hname).2

/-- No two strings of names are written alike. -/
theorem spelling_injective {names names' : List String}
    (h : ∀ name ∈ names, Source.Readable name) (h' : ∀ name ∈ names', Source.Readable name)
    (heq : spelling names = spelling names') : names = names' := by
  have hsplit : (spelling names).toList.splitOn ' ' = (spelling names').toList.splitOn ' ' := by
    rw [heq]
  rw [splitOn_spelling h, splitOn_spelling h'] at hsplit
  -- the empty string is written as a name, but one that no other string has
  have hempty : ∀ {others : List String}, (∀ name ∈ others, Source.Readable name) →
      others.map String.toList ≠ [epsilon.toList] := by
    intro others hothers hmap
    obtain ⟨name, rest, rfl, hname, -⟩ := List.map_eq_cons_iff.mp hmap
    exact (hothers name (List.mem_cons_self ..)).1 (String.toList_inj.mp hname)
  split at hsplit
  next hnil =>
    split at hsplit
    next hnil' => rw [hnil, hnil']
    next => exact absurd hsplit.symm (hempty h')
  next =>
    split at hsplit
    next => exact absurd hsplit (hempty h)
    next => exact List.map_injective_iff.mpr (fun _ _ => String.toList_inj.mp) hsplit

theorem inconclusiveText_injective {depthLimit : Nat} {names names' : List String}
    (h : ∀ name ∈ names, Source.Readable name) (h' : ∀ name ∈ names', Source.Readable name)
    (heq : inconclusiveText depthLimit names = inconclusiveText depthLimit names') :
    names = names' := by
  refine spelling_injective h h' ?_
  have hline := (String.append_left_inj _).mp heq
  exact (String.append_right_inj _).mp ((String.append_left_inj _).mp hline)

theorem spellForm_eq_ok {word : Form} {names : List String} (h : g.SpelledBy word names) :
    g.spellForm word = .ok (spelling names) :=
  Grammar.spellForm_eq_ok_of_mapM (Grammar.mapM_name_eq_ok h)

theorem report_inconclusive_eq {word : Form} {names : List String} {depthLimit : Nat}
    {stdout : String} (hspelled : g.SpelledBy word names)
    (h : (Verdict.inconclusive word depthLimit).report g = .ok stdout) :
    stdout = inconclusiveText depthLimit names := by
  rw [Verdict.report, spellForm_eq_ok hspelled] at h
  cases h
  rfl

/-! ## The statement -/

/-- What the exit status of an answer tells of a grammar as it is written. -/
structure Response.Tells (n : NamedGrammar) (options : Options) (response : Response) : Prop where
  /-- Status 0: no string up to the length has two derivations. -/
  unambiguous : response.exit = 0 → ∀ names, n.Spells names → names.length ≤ options.maxLength →
    (n.derivationsOf names).Subsingleton
  /-- Status 1: there is nothing to derive, or a string up to the length has two derivations. -/
  ambiguous : response.exit = 1 → n.Wordless ∨
    ∃ names, n.Spells names ∧ names.length ≤ options.maxLength ∧ (n.derivationsOf names).Nontrivial
  /-- Status 3: the report names one string, and none before it has two derivations. -/
  inconclusive : response.exit = 3 → ∃ names,
    (∀ other, n.Spells other ∧ response.stdout = inconclusiveText options.depthLimit other ↔
      other = names) ∧
    names.length ≤ options.maxLength ∧ n.UnambiguousBefore names
  exit_mem : response.exit ∈ [0, 1, 3]

theorem survey_tells {n : NamedGrammar} (hg : g.Loaded) (hdenotes : g.Denotes n)
    (hreadable : ∀ name ∈ n.terminals, Source.Readable name)
    (h : survey options g seed = .ok response) : response.Tells n options := by
  obtain ⟨verdict, hmade, hexit, hreport⟩ := survey_eq_ok h
  have hreached : (surveyOf options g).Reached n verdict := by
    rw [hmade]
    exact Survey.reached_made hdenotes hg _
  cases hreached with
  | emptyVocabulary hwordless =>
    have hone : response.exit = 1 := hexit
    refine ⟨?_, fun _ => .inl hwordless, ?_, ?_⟩ <;> simp [hone]
  | notAmbiguous tested hall =>
    have hzero : response.exit = 0 := hexit
    refine ⟨fun _ => hall, ?_, ?_, ?_⟩ <;> simp [hzero]
  | ambiguous word first second hspells hfits hmany =>
    have hone : response.exit = 1 := hexit
    refine ⟨?_, fun _ => .inr ⟨_, hspells, hfits, hmany⟩, ?_, ?_⟩ <;> simp [hone]
  | @inconclusive word names hspelled hspells hfits hbefore =>
    have hthree : response.exit = 3 := hexit
    have hstdout := report_inconclusive_eq hspelled hreport
    refine ⟨?_, ?_, fun _ => ⟨names, fun other => ⟨?_, ?_⟩, hfits, hbefore⟩, ?_⟩
    · simp [hthree]
    · simp [hthree]
    · rintro ⟨hother, hsame⟩
      exact inconclusiveText_injective (fun name hname => hreadable name (hother name hname))
        (fun name hname => hreadable name (hspells name hname)) (hsame.symm.trans hstdout)
    · rintro rfl
      exact ⟨hspells, hstdout⟩
    · simp [hthree]

/-- **From the text of a file to the exit status.** Whatever the file is and however the
program is called, it exits with 2 exactly if the file is refused, and prints nothing then.
Any other file is text, and the status of the answer tells the truth about the rules that
the text states by name, from the start asked for or the first left-hand side. -/
theorem respond_tells {arguments : List String} (hparse : parse arguments = .ok options)
    (read : String → Except FileError (List UInt8)) (randomSeed : Nat) :
    ((∃ stderr, respond arguments read randomSeed = .ok ⟨2, "", stderr⟩) ↔
      ∃ errors, Source.load options.file (read options.file) options.start? = .error errors) ∧
    ∀ g, Source.load options.file (read options.file) options.start? = .ok g →
      ∃ bytes text, read options.file = .ok bytes ∧ Text.decode? bytes = some text ∧
        ∀ response, respond arguments read randomSeed = .ok response →
          response.Tells (Source.namedGrammarOf text options.start?) options := by
  have hrespond : respond arguments read randomSeed =
      execute options (read options.file) randomSeed := by
    rw [respond, hparse]
  rw [hrespond]
  have htells : ∀ g, Source.load options.file (read options.file) options.start? = .ok g →
      ∃ bytes text, read options.file = .ok bytes ∧ Text.decode? bytes = some text ∧
        ∀ response, execute options (read options.file) randomSeed = .ok response →
          response.Tells (Source.namedGrammarOf text options.start?) options := by
    intro g hload
    obtain ⟨bytes, text, hbytes, htext, hg, hdenotes⟩ := Source.load_eq_ok hload
    refine ⟨bytes, text, hbytes, htext, fun response hresponse => ?_⟩
    rw [execute, hload] at hresponse
    exact survey_tells hg hdenotes (fun _ => Source.readable_of_mem_terminals) hresponse
  refine ⟨⟨?_, ?_⟩, htells⟩
  · rintro ⟨stderr, hresponse⟩
    cases hload : Source.load options.file (read options.file) options.start? with
    | error errors => exact ⟨errors, rfl⟩
    | ok g =>
      -- no verdict comes with this status
      obtain ⟨bytes, text, -, -, hall⟩ := htells g hload
      have hmem := (hall _ hresponse).exit_mem
      simp at hmem
  · rintro ⟨errors, hload⟩
    rw [execute, hload]
    exact ⟨_, rfl⟩

/-- A file with a rule that leads from `S` to itself. -/
def unitLoopFile : List UInt8 := Text.encode "; a unit loop\r\nS -> a | S\n".toList

/-- What that file states. -/
def unitLoopRules : NamedGrammar := ⟨[("S", ["a"]), ("S", ["S"])], "S"⟩

theorem namedGrammarOf_unitLoopFile {text : String} (h : Text.decode? unitLoopFile = some text) :
    Source.namedGrammarOf text none = unitLoopRules := by
  rw [unitLoopFile, Text.decode?_encode, String.ofList_toList] at h
  cases h
  have hrules : Source.rulesOf "; a unit loop\r\nS -> a | S\n" = [("S", ["a"]), ("S", ["S"])] := by
    decide +kernel
  rw [Source.namedGrammarOf, hrules]
  rfl

/-- The file is answered with 1, as it has a string with two derivations, with 3 if they are too
long to be found, and with 2 if it is to start from a name that it has no rule for. -/
theorem respond_tells_unitLoop :
    (∃ response, respond ["g.cfg", "1"] (fun _ => .ok unitLoopFile) 0 = .ok response ∧
      response.exit = 1 ∧ ∃ names, unitLoopRules.Spells names ∧ names.length ≤ 1 ∧
        (unitLoopRules.derivationsOf names).Nontrivial) ∧
    (respond ["g.cfg", "1", "-d", "1"] (fun _ => .ok unitLoopFile) 0 =
        .ok ⟨3, inconclusiveText 1 ["a"], ""⟩ ∧ unitLoopRules.UnambiguousBefore ["a"]) ∧
    ∃ stderr, respond ["g.cfg", "1", "-s", "T"] (fun _ => .ok unitLoopFile) 0 =
      .ok ⟨2, "", stderr⟩ := by
  have hload : Source.load "g.cfg" (.ok unitLoopFile) none = .ok unitLoop := by
    decide +kernel
  have htold : ∀ {arguments : List String} {depthLimit : Nat} {response : Response},
      parse arguments = .ok ⟨"g.cfg", 1, none, none, depthLimit, false⟩ →
        respond arguments (fun _ => .ok unitLoopFile) 0 = .ok response →
          response.Tells unitLoopRules ⟨"g.cfg", 1, none, none, depthLimit, false⟩ := by
    intro arguments depthLimit response hparse hresponse
    obtain ⟨bytes, text, hbytes, htext, htells⟩ :=
      (respond_tells hparse (fun _ => .ok unitLoopFile) 0).2 unitLoop hload
    cases hbytes
    rw [← namedGrammarOf_unitLoopFile htext]
    exact htells response hresponse
  refine ⟨?_, ?_, ?_⟩
  · have hexit : (respond ["g.cfg", "1"] (fun _ => .ok unitLoopFile) 0).map Response.exit =
        .ok 1 := by decide +kernel
    cases hresponse : respond ["g.cfg", "1"] (fun _ => .ok unitLoopFile) 0 with
    | error problem =>
      rw [hresponse] at hexit
      cases hexit
    | ok response =>
      rw [hresponse] at hexit
      have hone : response.exit = 1 := Except.ok.inj hexit
      refine ⟨response, rfl, hone, ?_⟩
      rcases (htold rfl hresponse).ambiguous hone with hwordless | hambiguous
      · exact absurd hwordless.1 (by decide)
      · exact hambiguous
  · have hresponse : respond ["g.cfg", "1", "-d", "1"] (fun _ => .ok unitLoopFile) 0 =
        .ok ⟨3, inconclusiveText 1 ["a"], ""⟩ := by decide +kernel
    obtain ⟨names, hnames, -, hbefore⟩ := (htold rfl hresponse).inconclusive rfl
    have hletter : ["a"] = names := (hnames ["a"]).mp ⟨by decide, rfl⟩
    rw [← hletter] at hbefore
    exact ⟨hresponse, hbefore⟩
  · have hparse : parse ["g.cfg", "1", "-s", "T"] =
        .ok ⟨"g.cfg", 1, some "T", none, 2000, false⟩ := by rfl
    have hrefused : Source.load "g.cfg" (.ok unitLoopFile) (some "T") =
        .error [⟨.wholeFile "g.cfg", .undefinedStart "T"⟩] := by decide +kernel
    exact (respond_tells hparse (fun _ => .ok unitLoopFile) 0).1.mpr ⟨_, hrefused⟩

end AmbiguitySearch.CommandLine
