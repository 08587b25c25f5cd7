import Pins.Main
import Pins.Proofs.Abandoned
import Pins.Proofs.Acyclic
import Pins.Proofs.Alike
import Pins.Proofs.Assembled
import Pins.Proofs.Balanced
import Pins.Proofs.Bases
import Pins.Proofs.Bound
import Pins.Proofs.BoundAlike
import Pins.Proofs.Built
import Pins.Proofs.CallSites
import Pins.Proofs.Calls
import Pins.Proofs.Caret
import Pins.Proofs.Checking
import Pins.Proofs.ChunkLabels
import Pins.Proofs.Closed
import Pins.Proofs.CodeTexts
import Pins.Proofs.Compiled
import Pins.Proofs.Consumed
import Pins.Proofs.Cut
import Pins.Proofs.Cycles
import Pins.Proofs.Derivable
import Pins.Proofs.Derivation
import Pins.Proofs.Derived
import Pins.Proofs.Drafts
import Pins.Proofs.Effects
import Pins.Proofs.Elements
import Pins.Proofs.Enclosing
import Pins.Proofs.Evaluation
import Pins.Proofs.ExactLayout
import Pins.Proofs.ExactParse
import Pins.Proofs.Execution
import Pins.Proofs.Extends
import Pins.Proofs.Families
import Pins.Proofs.Follows
import Pins.Proofs.Forest
import Pins.Proofs.Forms
import Pins.Proofs.FrameSize
import Pins.Proofs.HasType
import Pins.Proofs.Histories
import Pins.Proofs.Integers
import Pins.Proofs.Interchange
import Pins.Proofs.Inventory
import Pins.Proofs.Kept
import Pins.Proofs.LabelCount
import Pins.Proofs.LabelTexts
import Pins.Proofs.Labelled
import Pins.Proofs.LaidOut
import Pins.Proofs.LaidOutAlike
import Pins.Proofs.Lexed
import Pins.Proofs.LineTable
import Pins.Proofs.Located
import Pins.Proofs.Lookup
import Pins.Proofs.Lowered
import Pins.Proofs.LoweredAlike
import Pins.Proofs.Lowers
import Pins.Proofs.Meaning
import Pins.Proofs.Mismatches
import Pins.Proofs.NestedSpans
import Pins.Proofs.Nesting
import Pins.Proofs.Numbers
import Pins.Proofs.Offsets
import Pins.Proofs.OnDemand
import Pins.Proofs.Onward
import Pins.Proofs.Operable
import Pins.Proofs.Operands
import Pins.Proofs.Paired
import Pins.Proofs.Parsed
import Pins.Proofs.Parts
import Pins.Proofs.Pieces
import Pins.Proofs.PlaceOrder
import Pins.Proofs.Placed
import Pins.Proofs.Placeless
import Pins.Proofs.Places
import Pins.Proofs.Precedence
import Pins.Proofs.Progress
import Pins.Proofs.ReadBack
import Pins.Proofs.Rearranged
import Pins.Proofs.Relabelled
import Pins.Proofs.Renamed
import Pins.Proofs.Reordered
import Pins.Proofs.Rounds
import Pins.Proofs.RoutineLabels
import Pins.Proofs.Runs
import Pins.Proofs.SavedFramePointer
import Pins.Proofs.Scoping
import Pins.Proofs.Settled
import Pins.Proofs.Shape
import Pins.Proofs.Simulation
import Pins.Proofs.Site
import Pins.Proofs.Slots
import Pins.Proofs.Sourced
import Pins.Proofs.StaticLinks
import Pins.Proofs.Storage
import Pins.Proofs.Stores
import Pins.Proofs.Stretches
import Pins.Proofs.Sweep
import Pins.Proofs.SyntaxTree
import Pins.Proofs.Tally
import Pins.Proofs.Tiled
import Pins.Proofs.Traversal
import Pins.Proofs.TypeTexts
import Pins.Proofs.Typed
import Pins.Proofs.TypedAlike
import Pins.Proofs.Unclosed
import Pins.Proofs.UniqueLabels
import Pins.Proofs.Unplaced
import Pins.Proofs.Values
import Pins.Proofs.Visible
import Pins.Proofs.WellFormed
import Pins.Proofs.WellScoped
import Pins.Proofs.WellTyped
import Pins.Text.Cursor
