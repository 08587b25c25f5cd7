import Pins.Frame.Label
import Pins.Ty

/-!
# Frames

A frame is the layout of one function's activation record. Above the frame pointer lie the incoming
arguments, the static link first; below it the locals, the caller's frame pointer and the return
address, and below these the outgoing arguments.

    FP + parametersSize  ^  incoming arguments
    FP + 0               |  static link
    FP - localsSize      |  locals
    old frame pointer    |
    return address       |
    SP + outgoingSize    v  outgoing arguments

A frame draft hands out offsets for parameters and locals as long as a signed word can address
them.
-/

namespace Pins

/-- The layout of the activation record of a function. -/
structure Frame where
  /-- The label of the function's code. -/
  label : Label
  /-- The number of functions the definition is nested in, itself included. -/
  level : Nat
  /-- The bytes of the incoming arguments, the static link included. -/
  parametersSize : Nat
  /-- The bytes of the locals. -/
  localsSize : Nat
  /-- The bytes of the largest argument list of a call in the function. -/
  outgoingSize : Nat
deriving DecidableEq, Repr

namespace Frame

/-- The lowest offset a signed word holds. -/
def minOffset : Int := -(Text.maxSigned : Int) - 1

/-- The offset of the caller's frame pointer: one word below the locals, or the lowest offset. -/
def oldFramePointerOffset (frame : Frame) : Int :=
  max (-(frame.localsSize : Int) - wordSize) minOffset

/-- The offset of the return address: one word below the caller's frame pointer, or the lowest
offset. -/
def returnAddressOffset (frame : Frame) : Int :=
  max (frame.oldFramePointerOffset - wordSize) minOffset

/-- The bytes of a frame below its frame pointer, or the largest word. -/
def size (frame : Frame) : Nat :=
  min (frame.localsSize + 2 * wordSize + frame.outgoingSize) Text.maxUnsigned

/-- The line that shows a frame. -/
def text (frame : Frame) : String :=
  "FRAME " ++ frame.label.text ++ " level=" ++ toString frame.level ++
    " params=" ++ toString frame.parametersSize ++ " locals=" ++ toString frame.localsSize ++
    " outgoing=" ++ toString frame.outgoingSize ++
    " oldFP=" ++ toString frame.oldFramePointerOffset ++
    " RA=" ++ toString frame.returnAddressOffset ++ " size=" ++ toString frame.size

end Frame

/-- A frame that is being laid out. -/
structure FrameDraft where
  /-- The frame as far as it is laid out. -/
  frame : Frame
deriving DecidableEq, Repr

namespace FrameDraft

/-- A frame without parameters, locals and calls. -/
def start (label : Label) (level : Nat) : FrameDraft := ⟨⟨label, level, 0, 0, 0⟩⟩

/-- The sum of two words, if it is a word. -/
def addWords? (left right : Nat) : Option Nat :=
  if left + right ≤ Text.maxUnsigned then some (left + right) else none

/-- A word as an offset, if a signed word holds it. -/
def asOffset? (size : Nat) : Option Int := if size ≤ Text.maxSigned then some size else none

/-- Room for a parameter and its offset, if the parameters can still be addressed. -/
def reserveParameter? (draft : FrameDraft) (size : Nat) : Option (Int × FrameDraft) := do
  let offset ← asOffset? draft.frame.parametersSize
  let total ← addWords? draft.frame.parametersSize size
  if total > maxObjectSize then none
  else some (offset, ⟨{ draft.frame with parametersSize := total }⟩)

/-- Room for a local and its offset, if the locals and the two words below them can still be
addressed. -/
def reserveLocal? (draft : FrameDraft) (size : Nat) : Option (Int × FrameDraft) := do
  let total ← addWords? draft.frame.localsSize size
  let reach ← addWords? total (2 * wordSize)
  if reach > maxObjectSize then none
  else
    let offset ← asOffset? total
    some (-offset, ⟨{ draft.frame with localsSize := total }⟩)

/-- Room for the arguments of a call. -/
def reserveArguments (draft : FrameDraft) (size : Nat) : FrameDraft :=
  ⟨{ draft.frame with outgoingSize := max draft.frame.outgoingSize size }⟩

variable {draft : FrameDraft} {size : Nat}

/-- A parameter is refused by none of the sums of words on the way to its offset: they all are words
if the parameters can be addressed. -/
theorem reserveParameter?_eq : draft.reserveParameter? size =
    if draft.frame.parametersSize + size ≤ maxObjectSize then
      some ((draft.frame.parametersSize : Int),
        ⟨{ draft.frame with parametersSize := draft.frame.parametersSize + size }⟩)
    else none := by
  unfold reserveParameter? asOffset? addWords? maxObjectSize Text.maxSigned Text.maxUnsigned
  by_cases hfits : draft.frame.parametersSize + size ≤ 2147483647
  · have hoffset : draft.frame.parametersSize ≤ 2147483647 := by omega
    have htotal : draft.frame.parametersSize + size ≤ 4294967295 := by omega
    simp [hfits, hoffset, htotal]
  · simp only [hfits, if_false]
    split <;> split <;> simp_all

/-- A local is refused by none of the sums of words on the way to its offset: they all are words
if the locals and the two words below them can be addressed. -/
theorem reserveLocal?_eq : draft.reserveLocal? size =
    if draft.frame.localsSize + size + 2 * wordSize ≤ maxObjectSize then
      some (-((draft.frame.localsSize + size : Nat) : Int),
        ⟨{ draft.frame with localsSize := draft.frame.localsSize + size }⟩)
    else none := by
  unfold reserveLocal? asOffset? addWords? maxObjectSize wordSize Text.maxSigned Text.maxUnsigned
  generalize draft.frame.localsSize + size = total
  by_cases hfits : total ≤ 2147483639
  · have hoffset : total ≤ 2147483647 := by omega
    have htotal : total ≤ 4294967295 := by omega
    have hreach : total ≤ 4294967287 := by omega
    have hnot : ¬ 2147483647 < total + 8 := by omega
    simp [hfits, hoffset, htotal, hreach, hnot]
  · by_cases htotal : total ≤ 4294967295
    · by_cases hreach : total ≤ 4294967287
      · have hlarge : 2147483647 < total + 8 := by omega
        simp [hfits, htotal, hreach, hlarge]
      · simp [hfits, htotal, hreach]
    · simp [hfits, htotal]

end FrameDraft

end Pins
