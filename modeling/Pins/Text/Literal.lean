/-!
# String literals

A string literal stands between single quotes, and a single quote inside it is written twice.
`halve` undoes `double` (`halve_double`). `body?` finds where a literal ends: at the first quote
that is not doubled, or, when the line ends before one comes, at the first quote of the last
doubled pair.
-/

namespace Pins.Text.Literal

/-- The text with every single quote written twice. -/
def double : List Char → List Char
  | [] => []
  | c :: rest => if c = '\'' then c :: c :: double rest else c :: double rest

/-- The text with every pair of single quotes written once. -/
def halve : List Char → List Char
  | [] => []
  | [c] => [c]
  | c :: d :: rest => if c = '\'' then c :: halve rest else c :: halve (d :: rest)

theorem halve_double (text : List Char) : halve (double text) = text := by
  induction text with
  | nil => rfl
  | cons c rest ih =>
    by_cases quote : c = '\''
    · simp [double, halve, quote, ih]
    · cases inner : double rest with
      | nil => simp_all [double, halve]
      | cons d others => simp_all [double, halve]

/-- The characters of a literal behind its opening quote, up to the quote that closes it. A pair of
quotes belongs to the literal if a closing quote follows on the line, and closes it otherwise. -/
def body? : List Char → Option (List Char)
  | [] => none
  | ['\''] => some []
  | c :: d :: rest =>
    if c = '\'' then
      if d = '\'' then
        match body? rest with
        | some body => some (c :: d :: body)
        | none => some []
      else some []
    else if c = '\n' then none
    else (body? (d :: rest)).map (c :: ·)
  | [_] => none

/-- The characters a literal may hold: printable ASCII. -/
def isAllowed (c : Char) : Bool := ' ' ≤ c && c ≤ '~'

end Pins.Text.Literal
