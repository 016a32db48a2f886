import RandomAccess.CommandLine.Screen
import RandomAccess.Proofs.CommandLine.Arguments
import RandomAccess.Proofs.CommandLine.Session

/-!
# Logging

What is logged does not decide what is answered. Two filters stand between a run and its log: the
least level, which the environment sets, and `--quiet`, which leaves the records at information
out. Each of them deletes its own records, whatever the other one does, and neither changes the
output or the exit code.
-/

namespace RandomAccess.CommandLine

/-- Whether an event is a record at information. -/
def Event.informs : Event → Bool
  | line _ => false
  | record entry => entry.level == .info

section

variable {event : Event} (sample : Sample) (input : List Int64) (options : Options)
  (outcome : Outcome)

theorem informs_of_mem_opening (h : event ∈ opening sample input) : event.informs = true := by
  simp only [opening, List.mem_cons, List.not_mem_nil, or_false] at h
  obtain rfl | rfl := h <;> rfl

/-- While a program runs, nothing is logged at information. -/
theorem not_informs_of_mem_progress (h : event ∈ progress outcome) : event.informs = false := by
  unfold progress at h
  obtain h | h := List.mem_append.mp h
  · obtain ⟨⟨number, step⟩, -, rfl⟩ := List.mem_map.mp h
    rfl
  · rw [List.mem_singleton.mp h]
    cases outcome <;> rfl

theorem informs_of_mem_report (h : event ∈ report outcome) : event.informs = true := by
  simp only [report, List.mem_append, List.mem_map, List.mem_cons, List.not_mem_nil,
    or_false] at h
  obtain (⟨⟨number, step⟩, -, rfl⟩ | rfl | rfl) | ⟨⟨category, amount⟩, -, rfl⟩ := h <;> rfl

/-- What is said at information is the opening and the report, which are left out together. -/
theorem said_quietly :
    said sample options.quietly outcome =
      (said sample options outcome).filter (!·.informs) := by
  have hopening : (opening sample options.input).filter (!·.informs) = [] :=
    List.filter_eq_nil_iff.mpr fun _ h => by
      simp [informs_of_mem_opening sample options.input h]
  have hprogress : (progress outcome).filter (!·.informs) = progress outcome :=
    List.filter_eq_self.mpr fun _ h => by simp [not_informs_of_mem_progress outcome h]
  have hreport : (report outcome).filter (!·.informs) = [] :=
    List.filter_eq_nil_iff.mpr fun _ h => by simp [informs_of_mem_report outcome h]
  change progress outcome = (said sample options outcome).filter (!·.informs)
  unfold said
  split
  · exact hprogress.symm
  · rw [List.filter_append, List.filter_append, hopening, hprogress, hreport, List.nil_append,
      List.append_nil]

/-- The same transcript without its records at information. -/
def Transcript.quietly (transcript : Transcript) : Transcript :=
  { transcript with events := transcript.events.filter (!·.informs) }

/-- The two filters may be applied in either order. -/
theorem written_quietly (transcript : Transcript) (minimum : Log.Level) :
    transcript.quietly.written minimum =
      (transcript.written minimum).filter (!·.informs) := by
  simp only [Transcript.written, Transcript.quietly, List.filter_filter, Bool.and_comm]

/-- To be quiet leaves the records at information out of the transcript of a run. -/
theorem ofRun_quietly :
    Transcript.ofRun sample options.quietly = (Transcript.ofRun sample options).quietly := by
  have hsame : sampleOutcome sample options.quietly = sampleOutcome sample options := rfl
  cases houtcome : sampleOutcome sample options with
  | success output trace =>
    rw [ofRun_of_success (hsame.trans houtcome), ofRun_of_success houtcome, said_quietly]
    rfl
  | failure fault position trace =>
    rw [ofRun_of_failure (hsame.trans houtcome), ofRun_of_failure houtcome, said_quietly]
    simp only [Transcript.quietly, List.filter_append]
    rfl

/-- To be quiet leaves the records at information out of a transcript, wherever it is asked for. -/
theorem ofWords_insert_quiet (command : String) (arguments : List Argument) (rest : List String) :
    Transcript.ofWords command (arguments.flatMap Argument.words ++ "--quiet" :: rest) =
      (Transcript.ofWords command (arguments.flatMap Argument.words ++ rest)).quietly := by
  unfold Transcript.ofWords
  rw [Options.read_insert_quiet]
  cases ({} : Options).read (arguments.flatMap Argument.words ++ rest) with
  | error refusal => rfl
  | ok options =>
    have hprogram : options.quietly.program = options.program := rfl
    simp only [Except.map, hprogram]
    cases Sample.ofName? options.program with
    | none => rfl
    | some sample => exact ofRun_quietly sample options

end

/-- At the least level of all everything is written. -/
theorem written_debug (transcript : Transcript) :
    transcript.written .debug = transcript.events := by
  refine List.filter_eq_self.mpr fun event _ => ?_
  obtain text | ⟨level, message⟩ := event
  · rfl
  · cases level <;> rfl

/-- Logging never changes the result: the least level and `--quiet` delete the records that they
stand for, and change neither another event nor the output nor the exit code. -/
theorem logging_is_invisible (command : String) (screen : Environment → Log.Terminal)
    (environment other full : Environment) {minimum enabled : Log.Level} (words : List String)
    (henvironment : environment.leastLevel? = some minimum)
    (hother : other.leastLevel? = some enabled) (hfull : full.leastLevel? = some .debug) :
    let given := answer command screen environment words
    let written := Session.written command environment words
    Session.answer command screen environment words = given ∧
      (answer command screen other words).exitCode = given.exitCode ∧
      (answer command screen other words).output = given.output ∧
      written = (Session.written command full words).filter (Event.visible minimum) ∧
      ∀ (arguments : List Argument) (rest : List String),
        words = arguments.flatMap Argument.words ++ rest →
        let quieter := arguments.flatMap Argument.words ++ "--quiet" :: rest
        (answer command screen environment quieter).exitCode = given.exitCode ∧
          (answer command screen environment quieter).output = given.output ∧
          Session.written command environment quieter = written.filter (!·.informs) := by
  intro given written
  have hgiven : given = (Transcript.ofWords command words).answer minimum (screen environment) :=
    answer_of_leastLevel? henvironment words
  have hwritten : written = (Transcript.ofWords command words).written minimum :=
    Session.written_eq command henvironment words
  refine ⟨Session.answer_eq command screen environment words, ?_, ?_, ?_, ?_⟩
  · rw [answer_of_leastLevel? hother, hgiven]
    rfl
  · rw [answer_of_leastLevel? hother, hgiven]
    rfl
  · rw [Session.written_eq command hfull, written_debug, hwritten]
    rfl
  · rintro arguments rest rfl quieter
    have hquieter := ofWords_insert_quiet command arguments rest
    rw [answer_of_leastLevel? henvironment, Session.written_eq command henvironment, hquieter,
      hgiven, hwritten]
    exact ⟨rfl, rfl, written_quietly _ minimum⟩

/-- A run that fails at its limit of two steps, with the words of the limit before the place where
quiet is asked for. At the level of warnings it writes a warning and an error. -/
theorem logging_is_invisible_fault :
    let answered := answer "ram_machine" Environment.screen
    let written := Session.written "ram_machine"
    let environment : Environment := { logLevel := some " Warning" }
    let full : Environment := { logLevel := some "debug", terminal := some "xterm" }
    let words := ["--steps", "2", "5"]
    environment.leastLevel? = some .warn ∧ full.leastLevel? = some .debug ∧
      (answered {} words).exitCode = 2 ∧ (answered environment words).exitCode = 2 ∧
      (written environment words).length = 2 ∧
      written environment words = (written full words).filter (Event.visible .warn) ∧
      written environment ["--steps", "2", "--quiet", "5"] =
        (written environment words).filter (!·.informs) := by
  intro answered written environment full words
  have henvironment : environment.leastLevel? = some .warn := by decide
  have hfull : full.leastLevel? = some .debug := by decide
  have hexit : (answered environment words).exitCode = 2 := by decide +kernel
  have hlength : (written environment words).length = 2 := by decide +kernel
  obtain ⟨-, hother, -, hwritten, hquiet⟩ :=
    logging_is_invisible "ram_machine" Environment.screen environment {} full words henvironment
      rfl hfull
  exact ⟨henvironment, hfull, hother.trans hexit, hexit, hlength, hwritten,
    (hquiet [.steps "2"] ["5"] rfl).2.2⟩

end RandomAccess.CommandLine
