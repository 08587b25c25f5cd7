import Pins.Diagnostic
import Pins.Frame.Access
import Pins.Frame.Basic
import Pins.NodeTable

/-!
# Laying out frames

The pass walks a tree once. It builds a frame for every function, and finds for every variable, type
definition and parameter where its value is kept: variables and types outside all functions have a
label of their own, others lie in the frame of the function around them.

A top-level function is labelled with its name, a nested one with a generated label. A function
whose parameters cannot be laid out stops the pass before its level is left again.
-/

namespace Pins

/-- Frames of functions, and accesses of definitions that keep a value. -/
structure Layout where
  /-- The frames of functions. -/
  frames : NodeTable Frame
  /-- The accesses of variables, type definitions and parameters. -/
  accesses : NodeTable Access
deriving DecidableEq, Repr

namespace Layout

/-- No frame and no access. -/
def empty : Layout := ⟨.empty, .empty⟩

/-- What laying out has reached. -/
structure State where
  /-- The labels left. -/
  labels : LabelSupply
  /-- The frames and accesses found. -/
  layout : Layout
  /-- The frames of the functions around the node that is visited, the innermost first. -/
  drafts : List FrameDraft
  /-- The number of functions around the node that is visited. -/
  level : Nat
deriving DecidableEq, Repr

/-- A step of the pass. -/
abbrev LayOut (α : Type) := Pass State α

/-- Nothing is laid out, outside all functions. -/
def State.initial (labels : LabelSupply) : State := ⟨labels, .empty, [], 0⟩

/-- Stops at a node. -/
def fail {α : Type} (arena : Arena) (id : NodeId) (fault : Fault) : LayOut α :=
  throw ⟨fault, arena.position id⟩

/-- The size of a value of the type of a node, measured by `sizeOf?`. -/
def measured (arena : Arena) (types : NodeTable Ty) (sizeOf? : Ty → Option Nat) (id : NodeId) :
    LayOut Nat :=
  match types.get? id with
  | none => fail arena id (.internalError (id.text ++ " has no type"))
  | some type =>
    match sizeOf? type with
    | some size => return size
    | none => fail arena id (.typeTooLarge type.text)

/-- Keeps the access of a node. -/
def recordAccess (arena : Arena) (id : NodeId) (access : Access) : LayOut Unit := do
  let state ← get
  match state.layout.accesses.store? id access with
  | some accesses => set { state with layout := { state.layout with accesses } }
  | none => fail arena id (.internalError (id.text ++ " already has an access"))

/-- Keeps the frame of a function. -/
def recordFrame (arena : Arena) (id : NodeId) (name : String) (frame : Frame) : LayOut Unit := do
  let state ← get
  match state.layout.frames.store? id frame with
  | some frames => set { state with layout := { state.layout with frames } }
  | none => fail arena id (.internalError (name ++ " already has a frame"))

/-- Keeps a value in the frame of the innermost function. -/
def placeLocal (arena : Arena) (id : NodeId) (name : String) (size : Nat) : LayOut Unit := do
  let state ← get
  match state.drafts with
  | [] => fail arena id (.internalError "local storage outside a function")
  | draft :: others =>
    match draft.reserveLocal? size with
    | none => fail arena id (.frameTooLarge name)
    | some (offset, draft) =>
      set { state with drafts := draft :: others }
      recordAccess arena id (.inFrame size offset state.level)

/-- Finds room for the value of a variable or type definition. -/
def place (arena : Arena) (types : NodeTable Ty) (id : NodeId) (name : String) :
    LayOut Unit := do
  let size ← measured arena types Ty.size? id
  if (← get).level = 0 then recordAccess arena id (.global size (.named name))
  else placeLocal arena id name size

/-- The label of a function at the current level. -/
def functionLabel (name : String) : LayOut Label := do
  let state ← get
  if state.level = 1 then return .named name
  else
    set { state with labels := state.labels.rest }
    return state.labels.label

/-- Finds room for parameters behind those that a frame has. A parameter without room is reported
under its own name, and what is no definition under the name of the function. -/
def layOutParameters (arena : Arena) (types : NodeTable Ty) (function : String) :
    FrameDraft → List NodeId → LayOut FrameDraft
  | draft, [] => return draft
  | draft, id :: others => do
    let size ← measured arena types Ty.argumentSize? id
    match draft.reserveParameter? size with
    | none =>
      let name := ((arena.definition? id).map Definition.name).getD function
      fail arena id (.frameTooLarge name)
    | some (offset, draft) =>
      recordAccess arena id (.parameter size offset (← get).level)
      layOutParameters arena types function draft others

/-- The frame of a function with its static link and its parameters. -/
def openFrame (arena : Arena) (types : NodeTable Ty) (id : NodeId) (name : String)
    (parameters : List NodeId) : LayOut FrameDraft := do
  let label ← functionLabel name
  match (FrameDraft.start label (← get).level).reserveParameter? wordSize with
  | none => fail arena id (.frameTooLarge name)
  | some (_, draft) => layOutParameters arena types name draft parameters

/-- The frame of the innermost function, which is left. -/
def State.closed (state : State) : State :=
  { state with drafts := state.drafts.drop 1, level := state.level - 1 }

/-- Lays out a function: its frame with the static link and the parameters, then its body. -/
def layOutFunction (arena : Arena) (types : NodeTable Ty) (visit : NodeId → LayOut Unit)
    (id : NodeId) (name : String) (parameters : List NodeId) (body : NodeId) : LayOut Unit := do
  modify fun state => { state with level := state.level + 1 }
  let draft ← openFrame arena types id name parameters
  modify fun state => { state with drafts := draft :: state.drafts }
  let built ← Pass.leaving State.closed do
    visit body
    return (← get).drafts.head?
  match built with
  | none => fail arena id (.internalError ("frame of " ++ name ++ " went missing"))
  | some draft => recordFrame arena id name draft.frame

/-- The bytes of the arguments of a call in addition to `size`. -/
def argumentBytes (arena : Arena) (types : NodeTable Ty) (id : NodeId) (callee : String) :
    Nat → List NodeId → LayOut Nat
  | size, [] => return size
  | size, argument :: others => do
    let total := size + (← measured arena types Ty.argumentSize? argument)
    if total ≤ Text.maxUnsigned then argumentBytes arena types id callee total others
    else fail arena id (.frameTooLarge callee)

/-- Makes room for the arguments of a call in the frame of the innermost function. -/
def reserveArguments (size : Nat) : LayOut Unit :=
  modify fun state =>
    match state.drafts with
    | [] => state
    | draft :: others => { state with drafts := draft.reserveArguments size :: others }

/-- Lays out a call: its arguments, then room for them and, unless the call is bound to no
definition, for a static link. -/
def layOutCall (arena : Arena) (bindings : NodeTable NodeId) (types : NodeTable Ty)
    (visit : NodeId → LayOut Unit) (id : NodeId) (callee : String) (arguments : List NodeId) :
    LayOut Unit := do
  arguments.forM visit
  let link := if bindings.contains id then wordSize else 0
  reserveArguments (← argumentBytes arena types id callee link arguments)

/-- Visits a node, given how to visit the nodes below it. Written types keep nothing, and parameters
are laid out with their function. -/
def visitNode (arena : Arena) (bindings : NodeTable NodeId) (types : NodeTable Ty)
    (visit : NodeId → LayOut Unit) (id : NodeId) : LayOut Unit :=
  match arena.kind? id with
  | none => fail arena id (.internalError (id.text ++ " is not a node"))
  | some (.definitions members) => members.forM visit
  | some (.definition (.function name parameters _ body)) =>
    layOutFunction arena types visit id name parameters body
  | some (.definition (.var name _)) => place arena types id name
  | some (.definition (.type name _)) => place arena types id name
  | some (.definition (.parameter ..)) => return ()
  | some (.expression (.call callee arguments)) =>
    layOutCall arena bindings types visit id callee arguments
  | some (.expression expression) => expression.children.forM visit
  | some (.type _) => return ()

/-- Visits a node and what is below it, down to `fuel` levels. -/
def visitWithin (arena : Arena) (bindings : NodeTable NodeId) (types : NodeTable Ty) :
    Nat → NodeId → LayOut Unit
  | 0 => fun id => fail arena id (.internalError "nesting bound exceeded")
  | fuel + 1 => visitNode arena bindings types (visitWithin arena bindings types fuel)

/-- Visits a node and what is below it. -/
def visit (arena : Arena) (bindings : NodeTable NodeId) (types : NodeTable Ty) :
    NodeId → LayOut Unit :=
  visitWithin arena bindings types arena.depthBound

/-- The layout of a program, and the labels left behind it. -/
def ofArena (arena : Arena) (bindings : NodeTable NodeId) (types : NodeTable Ty)
    (labels : LabelSupply) : Except Diagnostic (Layout × LabelSupply) :=
  match arena.root with
  | none => .ok (.empty, labels)
  | some root =>
    (Pass.finalState (visit arena bindings types root) (.initial labels)).map fun state =>
      (state.layout, state.labels)

/-- The line that shows the frame of a function. -/
def frameText (arena : Arena) (entry : NodeId × Frame) : String :=
  entry.1.text ++ " " ++ arena.describe entry.1 ++ ": " ++ entry.2.text

/-- The line that shows the access of a definition. -/
def accessText (arena : Arena) (entry : NodeId × Access) : String :=
  entry.1.text ++ " " ++ arena.describe entry.1 ++ ": " ++ entry.2.text

end Layout

end Pins
