import RandomAccess.CommandLine.Screen
import RandomAccess.Proofs.CommandLine.Arguments
import RandomAccess.Proofs.CommandLine.Session

/-!
# Verdicts

The first words that decide are the last ones that matter. A command line is refused while its words
are read at the first call for help or the first word that is not what it should be, and then no
word that follows is looked at. Only a flag whose own word is missing is refused for what does not
follow it.
-/

namespace RandomAccess.CommandLine

/-- Words that decide on their own that nothing is run. -/
inductive Verdict where
  /-- Help is asked for. -/
  | help (word : String) (h : Flag.ofWord? word = some .help)
  /-- The word of a limit of steps is no count. -/
  | steps (count : String) (h : Text.count? count = none)
  /-- A word is neither a flag nor a value. -/
  | value (word : String) (hflag : Flag.ofWord? word = none) (h : value? word = none)
  /-- After the separator and some values comes a word that is none, be it a flag or not. -/
  | separated (values : List String) (hvalues : ∀ value ∈ values, (value? value).isSome)
      (word : String) (h : value? word = none)

namespace Verdict

/-- The words of a verdict. -/
def words : Verdict → List String
  | help word _ | value word _ _ => [word]
  | steps count _ => ["--steps", count]
  | separated values _ word _ => "--" :: (values ++ [word])

/-- What is said of them. -/
def refusal : Verdict → Refusal
  | help _ _ => .help
  | steps _ _ => .invalidSteps
  | value word _ _ | separated _ _ word _ => .invalidInput word

end Verdict

/-- Words in which a verdict comes after nothing but groups that can be read. -/
def Decided (words : List String) (verdict : Verdict) : Prop :=
  ∃ (arguments : List Argument) (rest : List String),
    (∀ argument ∈ arguments, argument.readable) ∧
      words = arguments.flatMap Argument.words ++ (verdict.words ++ rest)

/-- Words that end with a flag whose own word is missing. -/
def Unfinished (words : List String) (refusal : Refusal) : Prop :=
  ∃ (arguments : List Argument) (word : String), (∀ argument ∈ arguments, argument.readable) ∧
    words = arguments.flatMap Argument.words ++ [word] ∧
      (word = "--program" ∧ refusal = .missingProgram ∨ word = "--steps" ∧ refusal = .invalidSteps)

/-- No flag is a value. -/
theorem value?_of_ofWord? {word : String} {flag : Flag} (h : Flag.ofWord? word = some flag) :
    value? word = none := by
  unfold Flag.ofWord? at h
  split at h
  · rfl
  · rfl
  · rfl
  · rfl
  · rfl
  · rfl
  · cases h

/-- The words of a group that cannot be read are a verdict. -/
theorem Argument.exists_verdict {argument : Argument} (h : argument.readable = false) :
    ∃ verdict : Verdict, argument.words = verdict.words := by
  cases argument with
  | program | quiet => cases h
  | steps count =>
    have hcount := Option.isNone_iff_eq_none.mp (Option.isSome_eq_false_iff.mp h)
    exact ⟨.steps count hcount, rfl⟩
  | value word hflag =>
    have hvalue := Option.isNone_iff_eq_none.mp (Option.isSome_eq_false_iff.mp h)
    exact ⟨.value word hflag hvalue, rfl⟩

section

variable {words : List String} {verdict : Verdict} {refusal : Refusal}

/-- The words of a verdict are decided by it. -/
theorem decided_words (verdict : Verdict) (rest : List String) :
    Decided (verdict.words ++ rest) verdict :=
  ⟨[], rest, nofun, rfl⟩

/-- What follows words that are decided does not change the verdict. -/
theorem Decided.append (h : Decided words verdict) (more : List String) :
    Decided (words ++ more) verdict := by
  obtain ⟨arguments, rest, hreadable, rfl⟩ := h
  exact ⟨arguments, rest ++ more, hreadable, by simp only [List.append_assoc]⟩

/-- A group that can be read leaves the verdict to the words after it. -/
theorem Decided.group {argument : Argument} (hreadable : argument.readable)
    (h : Decided words verdict) : Decided (argument.words ++ words) verdict := by
  obtain ⟨arguments, rest, hall, rfl⟩ := h
  refine ⟨argument :: arguments, rest, List.forall_mem_cons.mpr ⟨hreadable, hall⟩, ?_⟩
  rw [List.flatMap_cons, List.append_assoc]

theorem Unfinished.group {argument : Argument} (hreadable : argument.readable)
    (h : Unfinished words refusal) : Unfinished (argument.words ++ words) refusal := by
  obtain ⟨arguments, word, hall, rfl, hword⟩ := h
  refine ⟨argument :: arguments, word, List.forall_mem_cons.mpr ⟨hreadable, hall⟩, ?_, hword⟩
  rw [List.flatMap_cons, List.append_assoc]

end

namespace Options

variable (options : Options) {words : List String} {refusal : Refusal}

/-- After the separator a word that is no value is refused. -/
theorem readInput_refused {word : String} (h : value? word = none) (rest : List String) :
    options.readInput (word :: rest) = .error (.invalidInput word) := by
  simp only [readInput, push, h]
  rfl

/-- Words that are refused after the separator begin with values, and then comes one that is
none. -/
theorem exists_of_readInput_eq_error (h : options.readInput words = .error refusal) :
    ∃ values word rest, words = values ++ word :: rest ∧
      (∀ value ∈ values, (value? value).isSome) ∧ value? word = none ∧
        refusal = .invalidInput word := by
  induction words generalizing options with
  | nil => cases h
  | cons word words ih =>
    cases hword : value? word with
    | none =>
      rw [readInput_refused _ hword] at h
      cases h
      exact ⟨[], word, words, rfl, by simp, hword, rfl⟩
    | some value =>
      simp only [readInput, push, hword] at h
      obtain ⟨values, last, rest, rfl, hvalues, hlast⟩ := ih _ h
      refine ⟨word :: values, last, rest, rfl, List.forall_mem_cons.mpr ⟨?_, hvalues⟩, hlast⟩
      exact Option.isSome_iff_exists.mpr ⟨value, hword⟩

/-- A verdict is reached, whatever the options are and whatever follows. -/
theorem read_verdict (verdict : Verdict) (rest : List String) :
    options.read (verdict.words ++ rest) = .error verdict.refusal := by
  cases verdict with
  | help word h => exact options.read_help h rest
  | steps count h =>
    change options.read ((Argument.steps count).words ++ rest) = _
    rw [read_words, take, h]
    rfl
  | value word hflag h =>
    change options.read ((Argument.value word hflag).words ++ rest) = _
    rw [read_words, take, push, h]
    rfl
  | separated values hvalues word h =>
    change options.readInput (values ++ [word] ++ rest) = _
    rw [List.append_assoc, readInput_append _ hvalues]
    exact readInput_refused _ h rest

theorem read_of_decided {verdict : Verdict} (h : Decided words verdict) :
    options.read words = .error verdict.refusal := by
  obtain ⟨arguments, rest, hreadable, rfl⟩ := h
  rw [read_append _ hreadable, read_verdict]

theorem read_of_unfinished (h : Unfinished words refusal) :
    options.read words = .error refusal := by
  obtain ⟨arguments, word, hreadable, rfl, ⟨rfl, rfl⟩ | ⟨rfl, rfl⟩⟩ := h
  · rw [read_append _ hreadable]
    rfl
  · rw [read_append _ hreadable]
    rfl

/-- Words that are refused while they are read hold a verdict, or end too early. -/
theorem decided_or_unfinished (h : options.read words = .error refusal) :
    (∃ verdict, Decided words verdict ∧ verdict.refusal = refusal) ∨ Unfinished words refusal := by
  induction words using words_induction generalizing options with
  | nil => cases h
  | group argument rest ih =>
    cases hreadable : argument.readable with
    | true =>
      rw [read_words, options.take_of_readable hreadable] at h
      rcases ih _ h with ⟨verdict, hdecided, hrefusal⟩ | hunfinished
      · exact .inl ⟨verdict, hdecided.group hreadable, hrefusal⟩
      · exact .inr (hunfinished.group hreadable)
    | false =>
      obtain ⟨verdict, hwords⟩ := Argument.exists_verdict hreadable
      rw [hwords, read_verdict] at h
      rw [hwords]
      exact .inl ⟨verdict, decided_words verdict rest, Except.error.inj h⟩
  | separator words =>
    obtain ⟨values, word, rest, rfl, hvalues, hword, rfl⟩ :=
      options.exists_of_readInput_eq_error h
    let verdict : Verdict := .separated values hvalues word hword
    have hwords : verdict.words ++ rest = "--" :: (values ++ word :: rest) := by
      simp [verdict, Verdict.words]
    exact .inl ⟨verdict, hwords ▸ decided_words verdict rest, rfl⟩
  | help word rest hhelp =>
    rw [read_help _ hhelp] at h
    exact .inl ⟨.help word hhelp, decided_words (.help word hhelp) rest, Except.error.inj h⟩
  | program =>
    cases h
    exact .inr ⟨[], "--program", nofun, rfl, .inl ⟨rfl, rfl⟩⟩
  | steps =>
    cases h
    exact .inr ⟨[], "--steps", nofun, rfl, .inr ⟨rfl, rfl⟩⟩

/-- What words are refused for while they are read. -/
theorem read_eq_error_iff :
    options.read words = .error refusal ↔
      (∃ verdict, Decided words verdict ∧ verdict.refusal = refusal) ∨
        Unfinished words refusal := by
  constructor
  · exact options.decided_or_unfinished
  · rintro (⟨verdict, hdecided, rfl⟩ | hunfinished)
    · exact options.read_of_decided hdecided
    · exact options.read_of_unfinished hunfinished

end Options

variable {command : String} {screen : Environment → Log.Terminal} {environment : Environment}
  {words : List String}

/-- A refusal is answered by its exit code and its message, and without output. -/
theorem answer_of_refused {minimum : Log.Level} {refusal : Refusal}
    (hlevel : environment.leastLevel? = some minimum)
    (h : Transcript.ofWords command words = .ofRefusal command refusal) :
    answer command screen environment words =
      { exitCode := refusal.exitCode
        output := ""
        errors := refusal.message command ++ "\n" } := by
  rw [answer_of_leastLevel? hlevel, h]
  simp [Transcript.ofRefusal, Transcript.answer, Transcript.written, Event.visible, Event.text]

/-- Words that do the same are answered alike. -/
theorem answer_congr {others : List String}
    (h : Transcript.ofWords command words = Transcript.ofWords command others) :
    answer command screen environment words = answer command screen environment others := by
  unfold answer
  rw [h]

/-- A level that is not known is answered whatever the words are. -/
theorem answer_of_unknown {text : String} (htext : environment.logLevel = some text)
    (h : Log.Level.ofText? text = none) (words : List String) :
    answer command screen environment words =
      { exitCode := 1, output := "", errors := Log.Level.unknownMessage text ++ "\n" } := by
  simp only [answer, htext, h]

/-- The leftmost verdict decides: no word after it changes the answer. The word after `--program` is
no verdict, whatever it is, and a level that is not known gives one answer to all words. -/
theorem leftmost_decides (command : String) (screen : Environment → Log.Terminal)
    (environment : Environment) (words more : List String) :
    let answered := answer command screen environment
    (∀ verdict, Decided words verdict →
      answered (words ++ more) = answered words ∧
        ∀ minimum, environment.leastLevel? = some minimum → answered words =
          { exitCode := verdict.refusal.exitCode
            output := ""
            errors := verdict.refusal.message command ++ "\n" }) ∧
      (∀ refusal, ({} : Options).read words = .error refusal ↔
        (∃ verdict, Decided words verdict ∧ verdict.refusal = refusal) ∨
          Unfinished words refusal) ∧
      (∀ values flag word, (∀ value ∈ values, (value? value).isSome) →
        Flag.ofWord? word = some flag →
          ∃ verdict : Verdict, verdict.words = "--" :: (values ++ [word]) ∧
            verdict.refusal = .invalidInput word) ∧
      (∀ (arguments : List Argument) (name : String),
        ({} : Options).read (arguments.flatMap Argument.words ++ "--program" :: name :: more) =
          arguments.foldlM Options.take {} >>= fun taken =>
            { taken with program := name }.read more) ∧
      ∀ text, environment.logLevel = some text → Log.Level.ofText? text = none →
        answered words =
          { exitCode := 1, output := "", errors := Log.Level.unknownMessage text ++ "\n" } := by
  intro answered
  refine ⟨fun verdict hdecided => ?_, fun refusal => Options.read_eq_error_iff {}, ?_, ?_, ?_⟩
  · have hrefused {words : List String} (h : Decided words verdict) :
        Transcript.ofWords command words = .ofRefusal command verdict.refusal := by
      rw [Transcript.ofWords, Options.read_of_decided {} h]
    refine ⟨answer_congr ?_, fun minimum hlevel => answer_of_refused hlevel (hrefused hdecided)⟩
    rw [hrefused (hdecided.append more), hrefused hdecided]
  · intro values flag word hvalues hflag
    exact ⟨.separated values hvalues word (value?_of_ofWord? hflag), rfl, rfl⟩
  · intro arguments name
    rw [Options.read_flatMap_words]
    exact bind_congr fun taken => taken.read_words (.program name) more
  · intro text htext hunknown
    exact answer_of_unknown htext hunknown words

/-- The name of the program is the word for help, and the first word that is refused is a flag after
the separator; a call for help and a word that is no value come too late. -/
theorem leftmost_decides_separated :
    let answered := answer "ram_machine" Environment.screen
    let words := ["--program", "--help", "--quiet", "--", "3", "--steps"]
    let refused : Answer :=
      { exitCode := 1, output := "", errors := "Invalid input value: --steps\n" }
    let unknown : Answer :=
      { exitCode := 1
        output := ""
        errors := "unknown log level `loud` (expected debug, info, warn or error)\n" }
    answered {} (words ++ ["--help", "x"]) = refused ∧
      answered { logLevel := some "loud" } (words ++ ["--help", "x"]) = unknown := by
  intro answered words refused unknown
  have hdecides := leftmost_decides "ram_machine" Environment.screen
  obtain ⟨verdict, hwords, hrefusal⟩ :=
    (hdecides {} words []).2.2.1 ["3"] .steps "--steps" (by decide) rfl
  have hdecided : Decided words verdict :=
    ⟨[.program "--help", .quiet], [], by decide, by rw [hwords]; rfl⟩
  obtain ⟨hmore, hanswer⟩ := (hdecides {} words ["--help", "x"]).1 verdict hdecided
  refine ⟨hmore.trans ?_, ?_⟩
  · rw [hanswer .info rfl, hrefusal]
    rfl
  · have hunknown := (hdecides { logLevel := some "loud" } (words ++ ["--help", "x"]) []).2
    exact hunknown.2.2.2 "loud" rfl (by decide)

end RandomAccess.CommandLine
