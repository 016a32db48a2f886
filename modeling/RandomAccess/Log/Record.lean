import RandomAccess.Log.Level

/-!
# Log records

A record is written as its level between brackets, its message and the end of the line. The level
decides how the bracket is shown; how a terminal is brought to show it so is its own matter.
-/

namespace RandomAccess.Log

/-- The colours of the log. -/
inductive Colour where
  | cyan
  | yellow
  | red
  deriving DecidableEq, Repr, Inhabited

/-- How a text is to be shown. -/
structure Style where
  colour : Option Colour := none
  bold : Bool := false
  dimmed : Bool := false
  deriving DecidableEq, Repr, Inhabited

/-- How the bracket of a level is to be shown. -/
def Level.style : Level → Style
  | debug => { colour := some .cyan, dimmed := true }
  | info => {}
  | warn => { colour := some .yellow, bold := true }
  | error => { colour := some .red, bold := true }

/-- What a terminal is sent for a change of style. -/
structure Terminal where
  /-- Sent before a text that is to be shown in a style. -/
  select : Style → String
  /-- Sent after it. -/
  reset : String

/-- A message with its level. -/
structure Record where
  level : Level
  message : String
  deriving DecidableEq, Repr, Inhabited

/-- A record as a line of the log. -/
def Record.line (terminal : Terminal) (record : Record) : String :=
  terminal.select record.level.style ++ "[" ++ record.level.name ++ "] " ++ terminal.reset ++
    record.message ++ "\n"

end RandomAccess.Log
