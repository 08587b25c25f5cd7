import Pins.Compilation
import Pins.Diagnostic.Report

/-!
# The command

The command compiles one file up to a phase. It prints one line per phase with the time it took, and
on demand what the last phase found out; a diagnostic is reported on the error channel. The exit
code is 0 if all is well, 1 if the program is wrong, and 2 if the file cannot be read.

Where the time comes from is left open: a run is described in any monad that has a clock.
-/

namespace Pins.Command

/-- The phases in the order in which they run. -/
inductive Phase where
  | lex
  | parse
  | names
  | types
  | frames
  | ir
deriving DecidableEq, Repr

namespace Phase

/-- The word that selects a phase. -/
def word : Phase → String
  | lex => "lex"
  | parse => "parse"
  | names => "names"
  | types => "types"
  | frames => "frames"
  | ir => "ir"

/-- Every phase once. -/
def all : List Phase := [lex, parse, names, types, frames, ir]

/-- The phase a word selects. -/
def ofWord? (word : String) : Option Phase := all.find? fun phase => phase.word == word

/-- What is said in front of the time of a phase. -/
def doneText : Phase → String
  | lex => "Tokenized in "
  | parse => "Parsed in "
  | names => "Resolved names in "
  | types => "Type checked in "
  | frames => "Laid out frames in "
  | ir => "Lowered in "

end Phase

/-- What a run is asked to do. -/
structure Options where
  /-- The path of the source file. -/
  path : String
  /-- The phase behind which the run stops. -/
  phase : Phase
  /-- Whether the result of the last phase is printed. -/
  dump : Bool

/-- What is found under a path. -/
inductive Contents where
  /-- A file of text. -/
  | text (source : String)
  /-- No file. -/
  | missing
  /-- A file that cannot be read as text. -/
  | unreadable (reason : String)

/-- A piece of the printed output. -/
inductive Output where
  /-- Something said in front of a time, and the time. -/
  | time (label : String) (duration : Nat)
  /-- Text with the line feeds that belong to it. -/
  | text (text : String)
deriving DecidableEq, Repr

/-- How a run ends. -/
structure Outcome where
  /-- The exit code. -/
  exitCode : Nat
  /-- What is printed, in order. -/
  printed : List Output
  /-- What is written to the error channel. -/
  errors : String
deriving DecidableEq, Repr

/-- Output of one line. -/
def lineOf (text : String) : Output := .text (text ++ "\n")

/-- The name under which a source is known in diagnostics: the last part of its path. -/
def fileName (path : String) : String :=
  match (path.splitOn "/").filter fun part => part ≠ "" ∧ part ≠ "." with
  | [] => path
  | first :: others =>
    let last := (first :: others).getLast (List.cons_ne_nil first others)
    if last = ".." then path else last

/-- The steps of a run print as they go, and may stop with a diagnostic. -/
abbrev Run (m : Type → Type) := ExceptT Diagnostic (StateT (List Output) m)

variable {m : Type → Type} [Monad m]

/-- Prints. -/
def print (output : List Output) : Run m Unit := modify (· ++ output)

/-- The result of a phase; prints the time the phase took. -/
def phase {α : Type} (clock : m Nat) (done : Phase) (work : Unit → Except Diagnostic α) :
    Run m α := do
  let before ← liftM clock
  match work () with
  | .error diagnostic => throw diagnostic
  | .ok result =>
    let behind ← liftM clock
    print [.time done.doneText (behind - before)]
    return result

/-- Prints a result if the options ask for it. -/
def dumped (options : Options) (result : List Output) : Run m Unit :=
  if options.dump then print result else return ()

/-- What a run prints about the frames and accesses of a program. -/
def layoutLines (arena : Arena) (layout : Layout) : List Output :=
  layout.frames.entries.map (fun entry => lineOf (Layout.frameText arena entry)) ++
    layout.accesses.entries.map fun entry => lineOf (Layout.accessText arena entry)

/-- Compiles a named source up to the phase of the options. -/
def compile (clock : m Nat) (options : Options) (file source : String) : Run m Unit := do
  let start ← liftM clock
  let tokens ← phase clock .lex fun _ => tokenize file source
  if options.phase = .lex then
    dumped options (tokens.map fun token => lineOf token.text)
    return
  let arena ← phase clock .parse fun _ => parse file tokens
  if options.phase = .parse then
    dumped options (arena.root.toList.map fun root => .text (arena.dump root))
    return
  let bindings ← phase clock .names fun _ => Binding.ofArena arena
  if options.phase = .names then
    dumped options (bindings.entries.map fun entry => lineOf (Binding.entryText arena entry))
    return
  let types ← phase clock .types fun _ => Typing.ofArena arena bindings
  if options.phase = .types then
    dumped options (types.entries.map fun entry => lineOf (Typing.entryText arena entry))
    return
  let (layout, labels) ← phase clock .frames fun _ =>
    Layout.ofArena arena bindings types .full
  if options.phase = .frames then
    dumped options (layoutLines arena layout)
    return
  let (_, chunks) ← phase clock .ir fun _ =>
    Lowering.ofProgram ⟨arena, bindings, types, layout⟩ labels
  let stop ← liftM clock
  print [.time "Total time: " (stop - start)]
  dumped options (chunks.toList.map fun chunk => .text chunk.text)

/-- The outcome of a run that could not read its file. -/
def unreadable (path reason : String) : Outcome :=
  ⟨2, [], "Error: could not read " ++ path ++ ": " ++ reason ++ "\n"⟩

/-- A run of the command on what is found under the path of its options. -/
def run (clock : m Nat) (options : Options) : Contents → m Outcome
  | .missing => return unreadable options.path "No such file or directory (os error 2)"
  | .unreadable reason => return unreadable options.path reason
  | .text source => do
    let (result, printed) ←
      (compile clock options (fileName options.path) source).run.run []
    match result with
    | .ok () => return ⟨0, printed, ""⟩
    | .error diagnostic => return ⟨1, printed, diagnostic.report source⟩

/-- What the words behind the command ask for, or why they make no sense. -/
def parseArguments : Options → List String → Except String Options
  | options, [] =>
    if options.path = "" then .error "no source file is given" else .ok options
  | options, "--phase" :: word :: rest =>
    match Phase.ofWord? word with
    | some phase => parseArguments { options with phase } rest
    | none => .error ("unknown phase " ++ word)
  | options, "--dump" :: rest => parseArguments { options with dump := true } rest
  | options, "--verbose" :: rest => parseArguments options rest
  | options, "-v" :: rest => parseArguments options rest
  | options, word :: rest =>
    if options.path = "" then parseArguments { options with path := word } rest
    else .error ("unexpected argument " ++ word)

/-- What the words behind the command ask for, or why they make no sense. -/
def options (words : List String) : Except String Options :=
  parseArguments ⟨"", .ir, false⟩ words

end Pins.Command
