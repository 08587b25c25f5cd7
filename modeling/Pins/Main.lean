import Pins.Command

/-!
# The program

Reads the file, runs the command with the system's clock, and prints what the run yields.
-/

namespace Pins.Main

open Command

/-- A duration in nanoseconds, in milliseconds with three places. -/
def durationText (nanoseconds : Nat) : String :=
  let microseconds := nanoseconds / 1000
  let places := toString (microseconds % 1000)
  toString (microseconds / 1000) ++ "." ++
    String.ofList (List.replicate (3 - places.length) '0') ++ places ++ "ms"

/-- A piece of output as text. -/
def outputText : Output → String
  | .time label duration => label ++ durationText duration ++ "\n"
  | .text text => text

/-- What is found under a path. -/
def readContents (path : String) : IO Contents := do
  try
    return .text (← IO.FS.readFile path)
  catch
    | .noFileOrDirectory .. => return .missing
    | reason => return .unreadable (toString reason)

end Pins.Main

/-- Runs the command on its arguments. -/
def main (words : List String) : IO UInt32 := do
  match Pins.Command.options words with
  | .error reason =>
    IO.eprintln ("error: " ++ reason)
    return 2
  | .ok options =>
    let outcome ← Pins.Command.run IO.monoNanosNow options (← Pins.Main.readContents options.path)
    for output in outcome.printed do IO.print (Pins.Main.outputText output)
    IO.eprint outcome.errors
    return UInt32.ofNat outcome.exitCode
