import RandomAccess.CommandLine.Answer

/-!
# Screens

The terminals that the command is used on. One with colours is sent an escape sequence for every
attribute of a style, and any other one is sent nothing.
-/

namespace RandomAccess

namespace Log

/-- The escape sequence that gives a terminal the attribute of this number; 0 takes all of them
away. -/
def escape (code : Nat) : String :=
  "\x1b[" ++ code.repr ++ "m"

/-- The attribute of a colour. -/
def Colour.code : Colour → Nat
  | red => 31
  | yellow => 33
  | cyan => 36

/-- The attributes of a style. -/
def Style.codes (style : Style) : List Nat :=
  (if style.bold then [1] else []) ++ (if style.dimmed then [2] else []) ++
    style.colour.toList.map Colour.code

/-- A terminal with colours. -/
def Terminal.coloured : Terminal where
  select style := String.join ((0 :: style.codes).map escape)
  reset := escape 0

/-- A terminal without colours. -/
def Terminal.plain : Terminal where
  select _ := ""
  reset := ""

end Log

namespace CommandLine

/-- Colours are shown by a terminal that is known and not a dumb one, unless they are not wanted. -/
def Environment.screen (environment : Environment) : Log.Terminal :=
  match environment.terminal, environment.noColour with
  | none, _ | some "dumb", _ | some _, some _ => .plain
  | some _, none => .coloured

end CommandLine

end RandomAccess
