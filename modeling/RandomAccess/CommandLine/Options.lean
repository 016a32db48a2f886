import RandomAccess.Instruction.Arithmetic
import RandomAccess.Text.Numeral

/-!
# Options of the command line

Words are read from left to right. The first one that asks for help or is not understood decides,
whatever follows it. The word after `--program` or `--steps` belongs to it, and after `--` all
words are input values.
-/

namespace RandomAccess.CommandLine

/-- What the words of a command line ask for. -/
structure Options where
  /-- The name of the program to be run. -/
  program : String := "abs"
  /-- The number of steps after which the run fails. -/
  stepLimit : Option Nat := none
  /-- Whether the program, its input and its steps are left out of the log. -/
  quiet : Bool := false
  /-- The input values in the order of their words. -/
  input : List Int64 := []
  deriving DecidableEq, Repr, Inhabited

/-- Why nothing is run. -/
inductive Refusal where
  /-- Help was asked for. -/
  | help
  /-- No word follows `--program`. -/
  | missingProgram
  /-- No word follows `--steps`, or one that is no count. -/
  | invalidSteps
  /-- The word stands for an input value and is none. -/
  | invalidInput (word : String)
  /-- No sample has this name. -/
  | unknownProgram (name : String)
  deriving DecidableEq, Repr, Inhabited

/-- A word that is not an input value. -/
inductive Flag where
  | help
  | program
  | steps
  | quiet
  /-- Says that only input values follow. -/
  | separator
  deriving DecidableEq, Repr, Inhabited

/-- The flag of a word, if it is one. -/
def Flag.ofWord? (word : String) : Option Flag :=
  match word with
  | "-h" | "--help" => some help
  | "--program" => some program
  | "--steps" => some steps
  | "--quiet" => some quiet
  | "--" => some separator
  | _ => none

/-- The input value that a word stands for. -/
def value? (word : String) : Option Int64 :=
  (Text.integer? word).bind narrow?

/-- Appends the input value of a word. -/
def Options.push (options : Options) (word : String) : Except Refusal Options :=
  match value? word with
  | some value => .ok { options with input := options.input ++ [value] }
  | none => .error (.invalidInput word)

/-- Reads words that can only be input values. -/
def Options.readInput (options : Options) : List String → Except Refusal Options
  | [] => .ok options
  | word :: words => do (← options.push word).readInput words

/-- Reads words on top of what the earlier ones asked for. -/
def Options.read (options : Options) : List String → Except Refusal Options
  | [] => .ok options
  | word :: words =>
      match Flag.ofWord? word with
      | some .help => .error .help
      | some .program =>
          match words with
          | [] => .error .missingProgram
          | name :: words => { options with program := name }.read words
      | some .steps =>
          match words with
          | [] => .error .invalidSteps
          | count :: words =>
              match Text.count? count with
              | some limit => { options with stepLimit := some limit }.read words
              | none => .error .invalidSteps
      | some .quiet => { options with quiet := true }.read words
      | some .separator => options.readInput words
      | none => do (← options.push word).read words

end RandomAccess.CommandLine
