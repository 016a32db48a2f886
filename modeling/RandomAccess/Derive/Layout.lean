/-!
# Source text from tokens

Tokens are parted by one blank. Parentheses stand close to what they hold, braces do not. A
string literal escapes the quote, the backslash, the end of a line and the tab.
-/

namespace RandomAccess.Derive

/-- The tokens in order. -/
def sequence (tokens : List String) : String :=
  " ".intercalate tokens

/-- The tokens in parentheses. -/
def parenthesized (tokens : List String) : String :=
  "(" ++ sequence tokens ++ ")"

/-- The tokens in braces. -/
def braced (tokens : List String) : String :=
  sequence (["\x7b"] ++ tokens ++ ["\x7d"])

/-- A character inside a string literal. -/
def escapeChar : Char → List Char
  | '"' => ['\\', '"']
  | '\\' => ['\\', '\\']
  | '\n' => ['\\', 'n']
  | '\t' => ['\\', 't']
  | c => [c]

/-- The string literal of a text. -/
def literal (text : String) : String :=
  "\"" ++ String.ofList (text.toList.flatMap escapeChar) ++ "\""

/-- The items with a comma after each but the last. -/
def separated (items : List String) : List String :=
  items.intersperse ","

/-- The items with a comma after each. -/
def terminated (items : List String) : List String :=
  items.flatMap fun item => [item, ","]

end RandomAccess.Derive
