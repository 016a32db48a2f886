import RandomAccess.CommandLine.Transcript

/-!
# The answer to a command line

The environment gives the least level of the records that are written, and tells which terminal
they are shown on. A level that is not known is refused before any word is read.
-/

namespace RandomAccess.CommandLine

/-- The variables that matter, each with its value if it is set. -/
structure Environment where
  /-- The least log level that is written; information if it is not set. -/
  logLevel : Option String := none
  /-- The kind of the terminal. -/
  terminal : Option String := none
  /-- If it is set, even to nothing, no colours are wanted. -/
  noColour : Option String := none
  deriving DecidableEq, Repr, Inhabited

/-- The variable with the least log level. -/
def logVariable : String := "RAM_LOG"

/-- What is written on the two streams, and the exit code. -/
structure Answer where
  exitCode : Nat
  /-- The text of the output stream. -/
  output : String
  /-- The text of the error stream. -/
  errors : String
  deriving DecidableEq, Repr, Inhabited

/-- Whether an event is written at the least level `minimum`. -/
def Event.visible (minimum : Log.Level) : Event → Bool
  | line _ => true
  | record entry => minimum.enabled entry.level

/-- An event as written to a terminal. -/
def Event.text (terminal : Log.Terminal) : Event → String
  | line text => text ++ "\n"
  | record entry => entry.line terminal

/-- The events that are written at the least level `minimum`, in their order. -/
def Transcript.written (transcript : Transcript) (minimum : Log.Level) : List Event :=
  transcript.events.filter fun event => event.visible minimum

/-- What is written of a transcript. -/
def Transcript.answer (transcript : Transcript) (minimum : Log.Level) (terminal : Log.Terminal) :
    Answer where
  exitCode := transcript.exitCode
  output := transcript.output
  errors := String.join ((transcript.written minimum).map fun event => event.text terminal)

/-- The answer of a command to the words after its name. What is sent to the terminal of an
environment for its colours is left open. -/
def answer (command : String) (screen : Environment → Log.Terminal) (environment : Environment)
    (words : List String) : Answer :=
  let transcript := Transcript.ofWords command words
  match environment.logLevel with
  | none => transcript.answer .info (screen environment)
  | some text =>
      match Log.Level.ofText? text with
      | some minimum => transcript.answer minimum (screen environment)
      | none =>
          { exitCode := 1
            output := ""
            errors := Log.Level.unknownMessage text ++ "\n" }

end RandomAccess.CommandLine
