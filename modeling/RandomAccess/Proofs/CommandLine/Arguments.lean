import RandomAccess.CommandLine.Options

/-!
# Arguments

The words of a command line come in groups: a flag with the word that belongs to it, a flag that
stands alone, or an input value. A group changes the options in its own way, whatever follows it,
so words that start with whole groups are read group by group. If all of these can be read, the last
name and the last limit among them count, and their values are taken in order.
-/

namespace RandomAccess.CommandLine

/-- Words that are read together, before any separator. -/
inductive Argument where
  /-- The name of a program, whatever word it is. -/
  | program (name : String)
  /-- The word of a limit of steps. -/
  | steps (count : String)
  | quiet
  /-- A word that is no flag. -/
  | value (word : String) (h : Flag.ofWord? word = none)

/-- The words of a group. -/
def Argument.words : Argument → List String
  | program name => ["--program", name]
  | steps count => ["--steps", count]
  | quiet => ["--quiet"]
  | value word _ => [word]

theorem Argument.words_length_pos (argument : Argument) : 0 < argument.words.length := by
  cases argument <;> simp [words]

namespace Argument

/-- Whether the word of a group is what it should be. -/
def readable : Argument → Bool
  | program _ | quiet => true
  | steps count => (Text.count? count).isSome
  | value word _ => (value? word).isSome

/-- The name that a group gives. -/
def name? : Argument → Option String
  | program name => some name
  | steps _ | quiet | value _ _ => none

/-- The limit of steps that a group sets. -/
def limit? : Argument → Option Nat
  | steps count => Text.count? count
  | program _ | quiet | value _ _ => none

/-- The word of a group that stands for an input value. -/
def token? : Argument → Option String
  | value word _ => some word
  | program _ | steps _ | quiet => none

/-- The input value that a group stands for. -/
def number? (argument : Argument) : Option Int64 :=
  argument.token?.bind value?

/-- Whether a group asks for nothing but the output. -/
def silences : Argument → Bool
  | quiet => true
  | program _ | steps _ | value _ _ => false

end Argument

namespace Options

variable (options : Options)

/-- The options after one more group. -/
def take (options : Options) : Argument → Except Refusal Options
  | .program name => .ok { options with program := name }
  | .steps count =>
      match Text.count? count with
      | some limit => .ok { options with stepLimit := some limit }
      | none => .error .invalidSteps
  | .quiet => .ok { options with quiet := true }
  | .value word _ => options.push word

/-- Words that start with a group are read on from the options after it. -/
theorem read_words (argument : Argument) (rest : List String) :
    options.read (argument.words ++ rest) =
      options.take argument >>= fun taken => taken.read rest := by
  cases argument with
  | program name => rfl
  | steps count =>
    change options.read ("--steps" :: count :: rest) = _
    simp only [take, read, Flag.ofWord?]
    cases Text.count? count <;> rfl
  | quiet => rfl
  | value word h =>
    change options.read (word :: rest) = options.push word >>= _
    rw [read.eq_def]
    simp only [h]

/-- Words that start with groups are read on from the options after them. -/
theorem read_flatMap_words (arguments : List Argument) (rest : List String) :
    options.read (arguments.flatMap Argument.words ++ rest) =
      arguments.foldlM take options >>= fun taken => taken.read rest := by
  induction arguments generalizing options with
  | nil => rfl
  | cons argument arguments ih =>
    rw [List.flatMap_cons, List.append_assoc, read_words, List.foldlM_cons, bind_assoc]
    exact bind_congr fun options => ih options

/-- The options after some groups that can be read. -/
def after (options : Options) (arguments : List Argument) : Options where
  program := (arguments.filterMap Argument.name?).getLast?.getD options.program
  stepLimit := (arguments.filterMap Argument.limit?).getLast?.or options.stepLimit
  quiet := options.quiet || arguments.any Argument.silences
  input := options.input ++ arguments.filterMap Argument.number?

@[simp] theorem after_nil : options.after [] = options := by
  simp [after]

theorem after_append (arguments more : List Argument) :
    options.after (arguments ++ more) = (options.after arguments).after more := by
  simp only [after, List.filterMap_append, List.getLast?_append, List.any_append, Option.or_assoc,
    Option.getD_or, Bool.or_assoc, List.append_assoc]

theorem after_singleton (argument : Argument) :
    options.after [argument] =
      { program := argument.name?.getD options.program
        stepLimit := argument.limit?.or options.stepLimit
        quiet := options.quiet || argument.silences
        input := options.input ++ argument.number?.toList } := by
  cases hnumber : argument.number? <;> simp [after, hnumber]

/-- A group that can be read is taken. -/
theorem take_of_readable {argument : Argument} (h : argument.readable) :
    options.take argument = .ok (options.after [argument]) := by
  rw [after_singleton]
  cases argument with
  | program | quiet =>
    simp [take, Argument.name?, Argument.limit?, Argument.silences, Argument.number?,
      Argument.token?]
  | steps count =>
    obtain ⟨limit, hcount⟩ := Option.isSome_iff_exists.mp h
    simp [take, hcount, Argument.name?, Argument.limit?, Argument.silences, Argument.number?,
      Argument.token?]
  | value word hflag =>
    obtain ⟨value, hvalue⟩ := Option.isSome_iff_exists.mp h
    simp [take, push, hvalue, Argument.name?, Argument.limit?, Argument.silences,
      Argument.number?, Argument.token?]

/-- Groups that can be read are read before what follows them is. -/
theorem read_append {arguments : List Argument} (h : ∀ argument ∈ arguments, argument.readable)
    (rest : List String) :
    options.read (arguments.flatMap Argument.words ++ rest) =
      (options.after arguments).read rest := by
  induction arguments generalizing options with
  | nil => rw [after_nil, List.flatMap_nil, List.nil_append]
  | cons argument arguments ih =>
    obtain ⟨hfirst, hrest⟩ := List.forall_mem_cons.mp h
    have hafter := options.after_append [argument] arguments
    rw [List.singleton_append] at hafter
    rw [List.flatMap_cons, List.append_assoc, read_words, options.take_of_readable hfirst, hafter]
    exact ih _ hrest

/-- Words that are values are read before what follows them is. -/
theorem readInput_append {values : List String} (h : ∀ value ∈ values, (value? value).isSome)
    (rest : List String) :
    options.readInput (values ++ rest) =
      { options with input := options.input ++ values.filterMap value? }.readInput rest := by
  induction values generalizing options with
  | nil => rw [List.filterMap_nil, List.append_nil, List.nil_append]
  | cons value values ih =>
    obtain ⟨hfirst, hrest⟩ := List.forall_mem_cons.mp h
    obtain ⟨number, hnumber⟩ := Option.isSome_iff_exists.mp hfirst
    simp only [List.cons_append, readInput, push, hnumber]
    refine (ih _ hrest).trans ?_
    simp [hnumber]

/-- A word that asks for help is answered by help. -/
theorem read_help {word : String} (h : Flag.ofWord? word = some .help) (rest : List String) :
    options.read (word :: rest) = .error .help := by
  rw [read.eq_def]
  simp only [h]

/-- Words start with a group, the separator or a call for help, or with a flag after which the word
that belongs to it is missing. -/
theorem words_cases (word : String) (words : List String) :
    (∃ argument rest, word :: words = Argument.words argument ++ rest) ∨ word = "--" ∨
      Flag.ofWord? word = some .help ∨
      words = [] ∧ (word = "--program" ∨ word = "--steps") := by
  cases hflag : Flag.ofWord? word with
  | none => exact .inl ⟨.value word hflag, words, rfl⟩
  | some flag =>
    unfold Flag.ofWord? at hflag
    split at hflag
    · exact .inr (.inr (.inl hflag.symm))
    · exact .inr (.inr (.inl hflag.symm))
    · cases words with
      | nil => exact .inr (.inr (.inr ⟨rfl, .inl rfl⟩))
      | cons name rest => exact .inl ⟨.program name, rest, rfl⟩
    · cases words with
      | nil => exact .inr (.inr (.inr ⟨rfl, .inr rfl⟩))
      | cons count rest => exact .inl ⟨.steps count, rest, rfl⟩
    · exact .inl ⟨.quiet, words, rfl⟩
    · exact .inr (.inl rfl)
    · cases hflag

/-- Words are read group by group, up to a separator, a call for help or a flag whose own word is
missing. -/
theorem words_induction {motive : List String → Prop} (nil : motive [])
    (group : ∀ (argument : Argument) rest, motive rest → motive (argument.words ++ rest))
    (separator : ∀ words, motive ("--" :: words))
    (help : ∀ word rest, Flag.ofWord? word = some .help → motive (word :: rest))
    (program : motive ["--program"]) (steps : motive ["--steps"])
    (words : List String) : motive words := by
  induction hlength : words.length using Nat.strongRecOn generalizing words with
  | _ length ih =>
    cases words with
    | nil => exact nil
    | cons word words =>
      obtain ⟨argument, rest, hwords⟩ | rfl | hhelp | ⟨rfl, rfl | rfl⟩ := words_cases word words
      · rw [hwords] at hlength ⊢
        refine group argument rest (ih rest.length ?_ rest rfl)
        have := argument.words_length_pos
        simp only [List.length_append] at hlength
        omega
      · exact separator words
      · exact help word words hhelp
      · exact program
      · exact steps

/-- The same options with nothing but the output asked for. -/
def quietly (options : Options) : Options :=
  { options with quiet := true }

theorem push_quietly (word : String) :
    options.quietly.push word = (options.push word).map quietly := by
  unfold push
  cases value? word <;> rfl

theorem take_quietly (argument : Argument) :
    options.quietly.take argument = (options.take argument).map quietly := by
  cases argument with
  | program name => rfl
  | steps count =>
    simp only [take]
    cases Text.count? count <;> rfl
  | quiet => rfl
  | value word h => exact options.push_quietly word

theorem readInput_quietly (words : List String) :
    options.quietly.readInput words = (options.readInput words).map quietly := by
  induction words generalizing options with
  | nil => rfl
  | cons word words ih =>
    simp only [readInput, push_quietly]
    cases options.push word with
    | error refusal => rfl
    | ok options => exact ih options

/-- What is read does not depend on whether it was to be quiet before. -/
theorem read_quietly (words : List String) :
    options.quietly.read words = (options.read words).map quietly := by
  induction words using words_induction generalizing options with
  | nil => rfl
  | group argument rest ih =>
    rw [read_words, read_words, take_quietly]
    cases options.take argument with
    | error refusal => rfl
    | ok options => exact ih options
  | separator words => exact options.readInput_quietly words
  | help word rest h =>
    rw [read_help _ h, read_help _ h]
    rfl
  | program => rfl
  | steps => rfl

/-- Asking to be quiet between two groups asks for nothing else. -/
theorem read_insert_quiet (arguments : List Argument) (rest : List String) :
    options.read (arguments.flatMap Argument.words ++ "--quiet" :: rest) =
      (options.read (arguments.flatMap Argument.words ++ rest)).map quietly := by
  rw [read_flatMap_words, read_flatMap_words]
  cases arguments.foldlM take options with
  | error refusal => rfl
  | ok options => exact options.read_quietly rest

end Options

end RandomAccess.CommandLine
