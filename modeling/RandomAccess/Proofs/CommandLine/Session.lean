import RandomAccess.CommandLine.Answer
import RandomAccess.Proofs.Execution.Running

/-!
# Sessions

A command line as it is carried out: the level is set from the environment, the words are read, the
program is run and logged step by step, and the answer is given, unless the session was ended
before. Every call of the log looks at the level that is set then, and writes or stays silent. What
an action says does not depend on that level, only what is written of it does; so the whole session
writes what its answer holds.
-/

namespace RandomAccess.CommandLine

/-- What a session has written, and the least level that it writes. -/
structure Console where
  /-- The least level, as it is set at this moment. -/
  minimum : Log.Level := .info
  /-- What was written to the error stream, in order. -/
  written : List Event := []
  /-- What was written to the output stream. -/
  output : String := ""

/-- Actions of a session. One that ends the session gives its exit code. -/
abbrev Session := ExceptT Nat (StateM Console)

/-- The least level that an environment asks for, unless it asks for one that is not known. -/
def Environment.leastLevel? (environment : Environment) : Option Log.Level :=
  match environment.logLevel with
  | none => some .info
  | some text => Log.Level.ofText? text

theorem answer_of_leastLevel? {command : String} {screen : Environment → Log.Terminal}
    {environment : Environment} {minimum : Log.Level}
    (h : environment.leastLevel? = some minimum) (words : List String) :
    answer command screen environment words =
      (Transcript.ofWords command words).answer minimum (screen environment) := by
  unfold Environment.leastLevel? at h
  unfold answer
  split at h
  · cases h
    simp only [*]
  · simp only [*]

/-- What is said of a run before its output or its fault. -/
def said (sample : Sample) (options : Options) (outcome : Outcome) : List Event :=
  if options.quiet then
    progress outcome
  else
    opening sample options.input ++ progress outcome ++ report outcome

section

variable {sample : Sample} {options : Options} {output : List Int64} {trace : List Step}
  {fault : Fault} {position : Nat}

/-- What is said and written of a run that succeeds. -/
theorem ofRun_of_success (h : sampleOutcome sample options = .success output trace) :
    Transcript.ofRun sample options =
      { events := said sample options (.success output trace)
        output := " ".intercalate (output.map Text.decimal) ++ "\n"
        exitCode := 0 } := by
  unfold Transcript.ofRun
  rw [h]
  rfl

/-- What is said of a run that fails. -/
theorem ofRun_of_failure (h : sampleOutcome sample options = .failure fault position trace) :
    Transcript.ofRun sample options =
      { events := said sample options (.failure fault position trace) ++
          [.log .error ("fault " ++ failureText position fault)]
        output := ""
        exitCode := 2 } := by
  unfold Transcript.ofRun
  rw [h]
  rfl

end

namespace Session

variable {α β : Type}

/-- The result of an action, or the exit code, and the console after it. -/
def exec (action : Session α) (console : Console) : Except Nat α × Console :=
  (StateT.run (ExceptT.run action) console).run

/-- Ends the session. -/
def exit (code : Nat) : Session α :=
  throw code

/-- Sets the least level that is written. -/
def setLevel (minimum : Log.Level) : Session Unit :=
  modify fun console => { console with minimum }

/-- Writes to the error stream. -/
def emit (event : Event) : Session Unit :=
  modify fun console => { console with written := console.written ++ [event] }

/-- Writes a line to the error stream, whatever the level. -/
def line (text : String) : Session Unit :=
  emit (.line text)

/-- Writes a record if its level is enabled now. -/
def log (level : Log.Level) (message : String) : Session Unit := do
  let console ← get
  if console.minimum.enabled level then
    emit (.log level message)

/-- Writes to the output stream. -/
def print (text : String) : Session Unit :=
  modify fun console => { console with output := console.output ++ text }

/-- Says why nothing is run, and ends the session. -/
def refuse (command : String) (refusal : Refusal) : Session α := do
  line (refusal.message command)
  exit refusal.exitCode

/-- Goes on with a result, or refuses to. -/
def accept (command : String) : Except Refusal α → Session α
  | .ok value => pure value
  | .error refusal => refuse command refusal

/-- Sets the level that the environment asks for, if it asks for one. -/
def configure (environment : Environment) : Session Unit :=
  match environment.logLevel with
  | none => pure ()
  | some text =>
      match Log.Level.ofText? text with
      | some minimum => setLevel minimum
      | none => do
          line (Log.Level.unknownMessage text)
          exit 1

/-- Makes steps until a number of them were made or the run ends, and logs each that succeeds before
the next one is made. -/
def advance (program : Program) : Nat → Run → Session Run
  | 0, run => pure run
  | count + 1, run =>
      match run.state.status with
      | .running =>
          match run.step program with
          | (.ok step, next) => do
              log .debug
                ("step " ++ stepPlace (run.trace.size + 1) step ++ ": " ++ stepText step)
              advance program count next
          | (.error _, next) => advance program count next
      | .halted | .faulted _ => pure run

/-- Logs the end of a run. -/
def conclude (outcome : Outcome) : Session Unit :=
  match outcome with
  | .success _ trace => log .debug ("run halted after " ++ trace.length.repr ++ " steps")
  | .failure fault position _ => log .warn ("run faulted " ++ failureText position fault)

/-- Runs a sample for as many steps as it may make, and logs the run. -/
def runSample (sample : Sample) (options : Options) : Session Outcome := do
  let machine : Machine := { program := sample.program, config.stepLimit := options.stepLimit }
  let limit := options.stepLimit.getD (sample.stepBound options.input.length)
  let run ← advance machine.program limit (.start (machine.start options.input))
  conclude (run.outcomeAt limit)
  return run.outcomeAt limit

/-- Logs the program and the input. -/
def describe (sample : Sample) (input : List Int64) : Session Unit := do
  log .info ("program `" ++ sample.name ++ "`:\n" ++ sample.program.listing)
  log .info ("input: " ++ Text.bracketed input)

/-- Logs the steps of a run and what they cost. -/
def report (outcome : Outcome) : Session Unit := do
  (numbered outcome.trace).forM fun (number, step) =>
    log .info (stepPlace number step ++ "  " ++ stepText step)
  log .info ("uniform cost:     " ++ outcome.cost.uniform.repr)
  log .info ("logarithmic cost: " ++ outcome.cost.logarithmic.repr)
  outcome.cost.profile.entries.forM fun (category, amount) =>
    log .info ("  " ++ Text.alignLeft 12 category.name ++ " " ++ amount.repr)

/-- Prints the output, or logs the fault and ends the session. -/
def finish : Outcome → Session Unit
  | .success output _ => print (" ".intercalate (output.map Text.decimal) ++ "\n")
  | .failure fault position _ => do
      log .error ("fault " ++ failureText position fault)
      exit 2

/-- Leaves an action out when the session is to be quiet. -/
def unlessQuiet (options : Options) (action : Session Unit) : Session Unit :=
  if options.quiet then pure () else action

/-- Runs a sample, and says what it is, how it went and what came out. -/
def perform (sample : Sample) (options : Options) : Session Unit := do
  unlessQuiet options (describe sample options.input)
  let outcome ← runSample sample options
  unlessQuiet options (report outcome)
  finish outcome

/-- Carries out the words of a command line. -/
def carryOut (command : String) (words : List String) : Session Unit := do
  let options ← accept command (({} : Options).read words)
  match Sample.ofName? options.program with
  | none => refuse command (.unknownProgram options.program)
  | some sample => perform sample options

/-- The console and the result after a whole session. -/
def whole (command : String) (environment : Environment) (words : List String) :
    Except Nat Unit × Console :=
  (do configure environment; carryOut command words : Session Unit).exec {}

/-- What a session has written to the error stream in the end. -/
def written (command : String) (environment : Environment) (words : List String) : List Event :=
  (whole command environment words).2.written

/-- A session that is not ended before leaves with the exit code 0. -/
def exitCode : Except Nat Unit → Nat
  | .ok () => 0
  | .error code => code

/-- The answer that a session gives. -/
def answer (command : String) (screen : Environment → Log.Terminal) (environment : Environment)
    (words : List String) : Answer where
  exitCode := exitCode (whole command environment words).1
  output := (whole command environment words).2.output
  errors := String.join ((written command environment words).map fun event =>
    event.text (screen environment))

/-- An action says some events and some output, whatever was written before, and gives a result or
the exit code. Of the events those are written that are visible at the least level. -/
def Says (action : Session α) (events : List Event) (output : String)
    (result : Except Nat α) : Prop :=
  ∀ console, action.exec console =
    (result, { console with
      written := console.written ++ events.filter fun event => event.visible console.minimum
      output := console.output ++ output })

variable {first : Session α} {second : α → Session β} {value : α} {events more : List Event}
  {output command : String} {code : Nat}

/-- The second action is carried out on the console that the first one leaves, unless the session
was ended. -/
theorem exec_bind (first : Session α) (second : α → Session β) (console : Console) :
    (first >>= second).exec console =
      match first.exec console with
      | (.ok value, middle) => (second value).exec middle
      | (.error code, middle) => (.error code, middle) := by
  simp only [exec, ExceptT.run_bind, StateT.run_bind]
  -- what is left is a bind of the identity monad, so only the result has to be looked at
  change (match StateT.run (ExceptT.run first) console with | (result, middle) => _ : Id _) = _
  obtain ⟨value | code, middle⟩ := StateT.run (ExceptT.run first) console <;> rfl

@[simp] theorem exec_pure (value : α) (console : Console) :
    (pure value : Session α).exec console = (.ok value, console) := rfl

@[simp] theorem exec_get (console : Console) :
    (get : Session Console).exec console = (.ok console, console) := rfl

@[simp] theorem exec_modify (change : Console → Console) (console : Console) :
    (modify change : Session PUnit).exec console = (.ok ⟨⟩, change console) := rfl

@[simp] theorem exec_exit (code : Nat) (console : Console) :
    (exit code : Session α).exec console = (.error code, console) := rfl

theorem says_pure (value : α) : Says (pure value) [] "" (.ok value) := by
  intro console
  simp

theorem says_exit (code : Nat) : Says (exit code : Session α) [] "" (.error code) := by
  intro console
  simp

theorem says_line (text : String) : (line text).Says [.line text] "" (.ok ()) := by
  intro console
  simp [line, emit, Event.visible]

theorem says_print (text : String) : (print text).Says [] text (.ok ()) := by
  intro console
  simp [print]

/-- A call of the log says its record, though it may write nothing. -/
theorem says_log (level : Log.Level) (message : String) :
    (log level message).Says [.log level message] "" (.ok ()) := by
  intro console
  simp only [log, exec_bind, exec_get]
  by_cases h : console.minimum.enabled level = true
  · simp [emit, Event.log, Event.visible, h]
  · simp [Event.log, Event.visible, h]

theorem Says.bind {result : Except Nat β} (hfirst : first.Says events "" (.ok value))
    (hsecond : (second value).Says more output result) :
    (first >>= second).Says (events ++ more) output result := by
  intro console
  simp only [exec_bind, hfirst console, hsecond _, List.filter_append, List.append_assoc,
    String.append_assoc, String.empty_append]

theorem Says.seq {first : Session Unit} {second : Session β} {result : Except Nat β}
    (hfirst : first.Says events "" (.ok ())) (hsecond : second.Says more output result) :
    Says (do first; second) (events ++ more) output result :=
  hfirst.bind hsecond

theorem Says.bind_exit (hfirst : first.Says events output (.error code)) :
    (first >>= second).Says events output (.error code) := by
  intro console
  rw [exec_bind, hfirst]

/-- Actions that are carried out one after another say their events in this order. -/
theorem says_forM {γ : Type} {action : γ → Session Unit} {event : γ → Event} (items : List γ)
    (h : ∀ item, (action item).Says [event item] "" (.ok ())) :
    (items.forM action).Says (items.map event) "" (.ok ()) := by
  induction items with
  | nil => exact says_pure ()
  | cons item items ih => exact (h item).seq ih

theorem says_unlessQuiet (options : Options) {action : Session Unit}
    (h : action.Says events "" (.ok ())) :
    (unlessQuiet options action).Says (if options.quiet then [] else events) "" (.ok ()) := by
  unfold unlessQuiet
  split
  · exact says_pure ()
  · exact h

/-- The record of a step that was made. -/
def stepEvent (number : Nat) (step : Step) : Event :=
  .log .debug ("step " ++ stepPlace number step ++ ": " ++ stepText step)

/-- A session makes the steps of a run, and says each of them with its number. -/
theorem says_advance (program : Program) (count : Nat) (run : Run) :
    ∃ steps : List Step, (Run.advance program count run).trace = run.trace ++ steps.toArray ∧
      (advance program count run).Says
        ((steps.zipIdx (run.trace.size + 1)).map fun entry => stepEvent entry.2 entry.1) ""
        (.ok (Run.advance program count run)) := by
  induction count generalizing run with
  | zero => exact ⟨[], by simp [Run.advance], says_pure run⟩
  | succ count ih =>
    by_cases hrun : run.state.status = .running
    · obtain ⟨steps, htrace, hsays⟩ := ih (run.step program).2
      simp only [Run.advance, hrun, advance]
      cases hstep : run.state.step program with
      | mk answer state =>
        cases answer with
        | error fault =>
          have hnext : run.step program = (.error fault, ⟨state, run.trace⟩) := by
            simp only [Run.step, hstep]
          -- a failed step is neither recorded nor said
          rw [hnext] at htrace hsays ⊢
          exact ⟨steps, htrace, hsays⟩
        | ok step =>
          have hnext : run.step program = (.ok step, ⟨state, run.trace.push step⟩) := by
            simp only [Run.step, hstep]
          rw [hnext] at htrace hsays ⊢
          refine ⟨step :: steps, by simp [htrace], ?_⟩
          rw [Array.size_push] at hsays
          exact (says_log _ _).seq hsays
    · rw [Run.advance_of_not_running hrun]
      refine ⟨[], by simp, ?_⟩
      unfold advance
      split
      · contradiction
      · exact says_pure run
      · exact says_pure run

/-- The trace of an outcome is that of its run. -/
theorem trace_outcomeAt (run : Run) (limit : Nat) :
    (run.outcomeAt limit).trace = run.trace.toList := by
  by_cases hrun : run.state.status = .running
  · rw [Run.outcomeAt_of_running hrun]
    rfl
  · exact Run.trace_of_outcome? (Run.outcome?_of_not_running hrun limit)

/-- The record of how a run ended. -/
def endEvent : Outcome → Event
  | .success _ trace => .log .debug ("run halted after " ++ trace.length.repr ++ " steps")
  | .failure fault position _ => .log .warn ("run faulted " ++ failureText position fault)

theorem says_conclude (outcome : Outcome) :
    (conclude outcome).Says [endEvent outcome] "" (.ok ()) := by
  cases outcome with
  | success | failure => exact says_log _ _

/-- A session runs a sample to its outcome, and says how it came to it. -/
theorem says_runSample (sample : Sample) (options : Options) :
    (runSample sample options).Says (progress (sampleOutcome sample options)) ""
      (.ok (sampleOutcome sample options)) := by
  let machine : Machine := { program := sample.program, config.stepLimit := options.stepLimit }
  let limit := options.stepLimit.getD (sample.stepBound options.input.length)
  obtain ⟨steps, htrace, hsays⟩ :=
    says_advance machine.program limit (.start (machine.start options.input))
  have hsteps : (sampleOutcome sample options).trace = steps := by
    refine (trace_outcomeAt _ limit).trans ?_
    rw [Machine.runTo, htrace]
    simp [Run.start]
  have hprogress : progress (sampleOutcome sample options) =
      (steps.zipIdx 1).map (fun entry => stepEvent entry.2 entry.1) ++
        [endEvent (sampleOutcome sample options)] := by
    unfold progress
    rw [hsteps, numbered, List.map_map]
    rfl
  rw [hprogress]
  refine hsays.bind ?_
  exact (says_conclude _).seq (says_pure _)

/-- A session answers refusals with their message and their exit code. -/
theorem says_refuse (refusal : Refusal) :
    (refuse command refusal : Session α).Says [.line (refusal.message command)] ""
      (.error refusal.exitCode) :=
  (says_line _).seq (says_exit _)

theorem says_describe (sample : Sample) (input : List Int64) :
    (describe sample input).Says (opening sample input) "" (.ok ()) :=
  (says_log _ _).seq (says_log _ _)

theorem says_report (outcome : Outcome) :
    (report outcome).Says (CommandLine.report outcome) "" (.ok ()) := by
  rw [CommandLine.report, List.append_assoc]
  exact (says_forM _ fun _ => says_log _ _).seq
    ((says_log _ _).seq ((says_log _ _).seq (says_forM _ fun _ => says_log _ _)))

/-- An action says what a transcript holds, and leaves with its exit code. -/
def Follows (action : Session Unit) (transcript : Transcript) : Prop :=
  ∃ result, action.Says transcript.events transcript.output result ∧
    exitCode result = transcript.exitCode

theorem follows_refuse (refusal : Refusal) :
    (refuse command refusal).Follows (.ofRefusal command refusal) :=
  ⟨_, says_refuse refusal, rfl⟩

/-- What a session says of a run before its last words. -/
theorem says_perform {sample : Sample} {options : Options} {outcome : Outcome}
    {result : Except Nat Unit} (houtcome : sampleOutcome sample options = outcome)
    (hfinish : (finish outcome).Says events output result) :
    (perform sample options).Says (said sample options outcome ++ events) output result := by
  subst houtcome
  have hsays : (perform sample options).Says _ output result :=
    (says_unlessQuiet options (says_describe _ _)).seq
      ((says_runSample _ _).bind ((says_unlessQuiet options (says_report _)).seq hfinish))
  cases hquiet : options.quiet <;> simpa [said, hquiet] using hsays

theorem follows_perform (sample : Sample) (options : Options) :
    (perform sample options).Follows (.ofRun sample options) := by
  cases houtcome : sampleOutcome sample options with
  | success values trace =>
    have hsays := says_perform houtcome (says_print _)
    rw [List.append_nil] at hsays
    rw [ofRun_of_success houtcome]
    exact ⟨_, hsays, rfl⟩
  | failure fault position trace =>
    rw [ofRun_of_failure houtcome]
    exact ⟨_, says_perform houtcome ((says_log _ _).seq (says_exit 2)), rfl⟩

/-- A session says what the transcript of its words holds. -/
theorem follows_carryOut (command : String) (words : List String) :
    (carryOut command words).Follows (.ofWords command words) := by
  unfold carryOut Transcript.ofWords
  cases hread : ({} : Options).read words with
  | error refusal => exact ⟨_, (says_refuse refusal).bind_exit, rfl⟩
  | ok options =>
    simp only [accept, pure_bind]
    cases hsample : Sample.ofName? options.program with
    | none => exact follows_refuse _
    | some sample => exact follows_perform sample options

/-- A session in an environment that asks for a known level says what its transcript holds, and
writes what is visible at this level. -/
theorem whole_eq (command : String) {environment : Environment} {minimum : Log.Level}
    (h : environment.leastLevel? = some minimum) (words : List String) :
    ∃ result, whole command environment words =
        (result, {
          minimum
          written := (Transcript.ofWords command words).written minimum
          output := (Transcript.ofWords command words).output }) ∧
      exitCode result = (Transcript.ofWords command words).exitCode := by
  obtain ⟨result, hsays, hexit⟩ := follows_carryOut command words
  refine ⟨result, ?_, hexit⟩
  have hconfigure : (configure environment).exec {} = (.ok (), { minimum }) := by
    unfold Environment.leastLevel? at h
    unfold configure
    split at h
    · cases h
      rfl
    · simp only [*]
      rfl
  simp only [whole, exec_bind, hconfigure, hsays _]
  simp [Transcript.written]

/-- A level that is not known ends the session before any word is read. -/
theorem whole_of_unknown (command : String) {environment : Environment} {text : String}
    (htext : environment.logLevel = some text) (h : Log.Level.ofText? text = none)
    (words : List String) :
    whole command environment words =
      (.error 1, { written := [.line (Log.Level.unknownMessage text)] }) := by
  have hconfigure : (configure environment).Says [.line (Log.Level.unknownMessage text)] ""
      (.error 1) := by
    simp only [configure, htext, h]
    exact (says_line _).seq (says_exit 1)
  simp only [whole, exec_bind, hconfigure _]
  simp [Event.visible]

/-- What a session writes in the end is what is visible of its transcript. -/
theorem written_eq (command : String) {environment : Environment} {minimum : Log.Level}
    (h : environment.leastLevel? = some minimum) (words : List String) :
    written command environment words = (Transcript.ofWords command words).written minimum := by
  obtain ⟨result, hwhole, -⟩ := whole_eq command h words
  rw [written, hwhole]

/-- A session gives the answer to its words. -/
theorem answer_eq (command : String) (screen : Environment → Log.Terminal)
    (environment : Environment) (words : List String) :
    answer command screen environment words =
      CommandLine.answer command screen environment words := by
  cases hlevel : environment.leastLevel? with
  | some minimum =>
    obtain ⟨result, hwhole, hexit⟩ := whole_eq command hlevel words
    rw [answer_of_leastLevel? hlevel, answer, written, hwhole, hexit]
    rfl
  | none =>
    unfold Environment.leastLevel? at hlevel
    split at hlevel
    · cases hlevel
    · rename_i text htext
      have hwhole := whole_of_unknown command htext hlevel words
      simp only [answer, written, CommandLine.answer, hwhole, htext, hlevel]
      simp [exitCode, Event.text]

end Session

end RandomAccess.CommandLine
