import RandomAccess.Proofs.CommandLine.Verdict
import RandomAccess.Proofs.Samples.Bounds
import RandomAccess.Proofs.Text.Decimal

/-!
# Invocations

A command line that can be read to its end says what is to be run: the last program that it names,
with the last limit that it sets, on all its values in their order. Where these stand among its
words does not matter, so the answer is told by the run that a machine with this program makes.
-/

namespace RandomAccess.CommandLine

/-- A value is read back from its decimal. -/
theorem value?_decimal (value : Int64) : value? (Text.decimal value) = some value := by
  rw [value?, Text.integer?_decimal, Option.bind_some]
  exact narrow?_eq_some_iff.mpr rfl

/-- A word that is a value is no flag. -/
theorem ofWord?_eq_none {word : String} (h : (value? word).isSome) : Flag.ofWord? word = none := by
  cases hflag : Flag.ofWord? word with
  | none => rfl
  | some flag =>
    rw [value?_of_ofWord? hflag] at h
    cases h

/-- A command line of which all words can be read: groups in any order, and then perhaps a separator
with values after it. -/
structure Invocation where
  /-- The groups before the separator. -/
  arguments : List Argument
  readable : ∀ argument ∈ arguments, argument.readable
  /-- The words after the separator, if there is one. -/
  trailing : Option (List String)
  values : ∀ words ∈ trailing, ∀ word ∈ words, (value? word).isSome

namespace Invocation

variable (invocation : Invocation)

/-- The words of an invocation. -/
def words : List String :=
  invocation.arguments.flatMap Argument.words ++ invocation.trailing.elim [] ("--" :: ·)

/-- The words that stand for input values, in order. -/
def tokens : List String :=
  invocation.arguments.filterMap Argument.token? ++ invocation.trailing.getD []

/-- What an invocation asks for: the last name and the last limit that it gives, and the values of
all its tokens. -/
def options : Options where
  program := (invocation.arguments.filterMap Argument.name?).getLast?.getD "abs"
  stepLimit := (invocation.arguments.filterMap Argument.limit?).getLast?
  quiet := invocation.arguments.any Argument.silences
  input := invocation.tokens.filterMap value?

theorem isSome_of_mem_tokens {token : String} (h : token ∈ invocation.tokens) :
    (value? token).isSome := by
  rcases List.mem_append.mp h with hgroup | htrailing
  · obtain ⟨argument, hmem, hword⟩ := List.mem_filterMap.mp hgroup
    have hreadable := invocation.readable argument hmem
    cases argument with
    | program | steps | quiet => cases hword
    | value word hflag =>
      cases hword
      exact hreadable
  · obtain ⟨words, hwords, htoken⟩ : ∃ words ∈ invocation.trailing, token ∈ words := by
      cases hwords : invocation.trailing with
      | none => simp [hwords] at htrailing
      | some words => exact ⟨words, rfl, by simpa [hwords] using htrailing⟩
    exact invocation.values words hwords token htoken

/-- Every token is a value of the input. -/
theorem map_value?_tokens :
    invocation.tokens.map value? = invocation.options.input.map some := by
  rw [options, List.map_filterMap_some_eq_filter_map_isSome]
  refine (List.filter_eq_self.mpr ?_).symm
  exact List.forall_mem_map.mpr fun token => invocation.isSome_of_mem_tokens

/-- The words of an invocation are read as what it asks for. -/
theorem read_words : ({} : Options).read invocation.words = .ok invocation.options := by
  have hnumbers : invocation.arguments.filterMap Argument.number? =
      (invocation.arguments.filterMap Argument.token?).filterMap value? :=
    List.filterMap_filterMap.symm
  rw [words, Options.read_append _ invocation.readable, options, tokens]
  cases htrailing : invocation.trailing with
  | none =>
    change Except.ok (Options.after {} invocation.arguments) = _
    simp [Options.after, hnumbers]
  | some words =>
    have hread := Options.readInput_append (Options.after {} invocation.arguments)
      (invocation.values words htrailing) []
    rw [List.append_nil] at hread
    refine hread.trans ?_
    simp [Options.readInput, Options.after, hnumbers]

/-- An invocation runs the sample of the last name that it gives. -/
theorem ofWords_of_known (command : String) {sample : Sample}
    (h : Sample.ofName? invocation.options.program = some sample) :
    Transcript.ofWords command invocation.words = .ofRun sample invocation.options := by
  simp only [Transcript.ofWords, read_words, h]

/-- If the last name is not known, an invocation says so and runs nothing. -/
theorem ofWords_of_unknown (command : String)
    (h : Sample.ofName? invocation.options.program = none) :
    Transcript.ofWords command invocation.words =
      .ofRefusal command (.unknownProgram invocation.options.program) := by
  simp only [Transcript.ofWords, read_words, h]

end Invocation

section

/-- The run is said in the middle of what is said of it. -/
theorem progress_infix_said (sample : Sample) (options : Options) (outcome : Outcome) :
    progress outcome <:+: said sample options outcome := by
  unfold said
  split
  · exact List.infix_rfl
  · exact List.infix_append _ _ _

/-- A run is said in full. -/
theorem progress_infix_ofRun (sample : Sample) (options : Options) :
    progress (sampleOutcome sample options) <:+: (Transcript.ofRun sample options).events := by
  cases h : sampleOutcome sample options with
  | success output trace =>
    rw [ofRun_of_success h]
    exact progress_infix_said sample options _
  | failure fault position trace =>
    rw [ofRun_of_failure h]
    exact (progress_infix_said sample options _).trans (List.prefix_append _ _).isInfix

/-- A record of an error at the end of a transcript is written last, whatever the least level is. -/
theorem getLast?_written {transcript : Transcript} {events : List Event} {message : String}
    (h : transcript.events = events ++ [.log .error message]) (minimum : Log.Level) :
    (transcript.written minimum).getLast? = some (.log .error message) := by
  have hvisible : (Event.log .error message).visible minimum = true := by
    cases minimum <;> rfl
  rw [Transcript.written, h, List.filter_append, List.filter_singleton, hvisible]
  exact List.getLast?_concat

end

namespace Invocation

variable {command : String} {screen : Environment → Log.Terminal} {environment : Environment}
  {minimum : Log.Level} {invocation : Invocation} {sample : Sample} {output : List Int64}
  {trace : List Step} {fault : Fault} {position : Nat}

/-- The output of a run that succeeds is written, its values apart by single blanks. -/
theorem answer_of_success (hlevel : environment.leastLevel? = some minimum)
    (hsample : Sample.ofName? invocation.options.program = some sample)
    (houtcome : sampleOutcome sample invocation.options = .success output trace) :
    (answer command screen environment invocation.words).exitCode = 0 ∧
      (answer command screen environment invocation.words).output =
        " ".intercalate (output.map Text.decimal) ++ "\n" := by
  rw [answer_of_leastLevel? hlevel, invocation.ofWords_of_known command hsample,
    ofRun_of_success houtcome]
  exact ⟨rfl, rfl⟩

/-- The fault of a run that fails is written last, and nothing is written as output. -/
theorem answer_of_failure (hlevel : environment.leastLevel? = some minimum)
    (hsample : Sample.ofName? invocation.options.program = some sample)
    (houtcome : sampleOutcome sample invocation.options = .failure fault position trace) :
    (answer command screen environment invocation.words).exitCode = 2 ∧
      (answer command screen environment invocation.words).output = "" ∧
      (Session.written command environment invocation.words).getLast? =
        some (.log .error ("fault " ++ failureText position fault)) := by
  rw [answer_of_leastLevel? hlevel, Session.written_eq command hlevel,
    invocation.ofWords_of_known command hsample, ofRun_of_failure houtcome]
  exact ⟨rfl, rfl, getLast?_written rfl minimum⟩

end Invocation

end RandomAccess.CommandLine
