import RandomAccess.Text.Blank

/-!
# Log levels

The four levels in their order, and the texts that name them. A level is found whatever the case
of its ASCII letters, with blanks around it, and `warning` is another name of `warn`.
-/

namespace RandomAccess.Log

/-- How much a log record matters. -/
inductive Level where
  | debug
  | info
  | warn
  | error
  deriving DecidableEq, Repr, Inhabited

namespace Level

/-- The levels, the least one first. -/
def all : List Level := [debug, info, warn, error]

/-- The place of a level in the order. -/
def rank : Level → Nat
  | debug => 0
  | info => 1
  | warn => 2
  | error => 3

instance : LE Level := ⟨fun a b => a.rank ≤ b.rank⟩

instance : LT Level := ⟨fun a b => a.rank < b.rank⟩

instance (a b : Level) : Decidable (a ≤ b) := inferInstanceAs (Decidable (a.rank ≤ b.rank))

instance (a b : Level) : Decidable (a < b) := inferInstanceAs (Decidable (a.rank < b.rank))

/-- The name of a level in a log line. -/
def name : Level → String
  | debug => "DEBUG"
  | info => "INFO"
  | warn => "WARN"
  | error => "ERROR"

/-- The level that a text names. -/
def ofText? (text : String) : Option Level :=
  match String.ofList ((Text.trim text.toList).map Char.toLower) with
  | "debug" => some debug
  | "info" => some info
  | "warn" | "warning" => some warn
  | "error" => some error
  | _ => none

/-- What is said of a text that names no level. -/
def unknownMessage (text : String) : String :=
  "unknown log level `" ++ text ++ "` (expected debug, info, warn or error)"

/-- Whether records of a level are written when `minimum` is the least level to be written. -/
def enabled (minimum level : Level) : Bool :=
  minimum ≤ level

end Level

end RandomAccess.Log
