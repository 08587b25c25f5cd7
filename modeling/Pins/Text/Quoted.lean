import Pins.Text.Unseen

/-!
# Texts quoted in messages

Messages quote a text between double quotes and a character between single quotes, so that what was
read can be told exactly: the closing quote and the backslash are escaped, four controls have a
letter, and whatever has no printed form is shown as its number in hexadecimal.
-/

namespace Pins.Text

/-- The number of a character in lower-case hexadecimal, as `\u` and braces. -/
def numbered (c : Char) : String :=
  "\\u\x7b" ++ String.ofList (Nat.toDigits 16 c.toNat) ++ "\x7d"

/-- One character as it stands between the given quotes. -/
def escaped (quote c : Char) : String :=
  if c = '\x00' then "\\0"
  else if c = '\t' then "\\t"
  else if c = '\r' then "\\r"
  else if c = '\n' then "\\n"
  else if c = '\\' ∨ c = quote then String.ofList ['\\', c]
  else if isUnseen c then numbered c
  else c.toString

/-- A text between double quotes. -/
def quoted (text : String) : String :=
  "\"" ++ String.join (text.toList.map (escaped '"')) ++ "\""

/-- A character between single quotes. -/
def quotedChar (c : Char) : String :=
  "'" ++ escaped '\'' c ++ "'"

end Pins.Text
