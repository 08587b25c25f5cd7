import Mathlib.Algebra.GroupWithZero.Nat
import Pins.Proofs.FrameSize
import Pins.Proofs.SavedFramePointer

/-!
# Drafts of frames

A frame that is being laid out is asked for room: for a parameter, for a local, or for the arguments
of a call. Whatever it is asked for, in whatever order and for however many bytes, the parameters
tile the bytes from the frame pointer upwards and the locals tile the bytes from the frame pointer
downwards, and room is refused exactly if an offset would leave the range of a signed word
(`FrameDraft.laidOut_of_requests`). The two words below the locals are then always addressed, so the
bounds in `Frame.oldFramePointerOffset` and `Frame.returnAddressOffset` are never met.

A ledger records what a draft was asked for and has granted. One request keeps a ledger in order
(`Ledger.serve_laidOut`), whether it is granted or refused.
-/

namespace Pins.FrameDraft

/-- A request to a frame that is being laid out. -/
inductive Request
  /-- Room for a parameter. -/
  | parameter (size : Nat)
  /-- Room for a local. -/
  | storage (size : Nat)
  /-- Room for the arguments of a call. -/
  | call (size : Nat)
deriving DecidableEq, Repr

/-- Bytes of a frame that follow one another. -/
structure Area where
  /-- The offset of the first byte. -/
  first : Int
  /-- The number of bytes. -/
  size : Nat
deriving DecidableEq, Repr

namespace Area

/-- The offset behind an area. -/
def last (area : Area) : Int := area.first + area.size

/-- An area has the byte at an offset. -/
def Holds (area : Area) (offset : Int) : Prop := area.first ≤ offset ∧ offset < area.last

end Area

/-- Areas that follow one another without a gap from one offset up to another. -/
def Tiling : Int → List Area → Int → Prop
  | first, [], last => first = last
  | first, area :: others, last => area.first = first ∧ Tiling area.last others last

namespace Tiling

variable {first middle last : Int} {area : Area} {areas others : List Area}

theorem append (h : Tiling first areas middle) (ho : Tiling middle others last) :
    Tiling first (areas ++ others) last := by
  induction areas generalizing first with
  | nil =>
    obtain rfl : first = middle := h
    exact ho
  | cons area rest ih => exact ⟨h.1, ih h.2⟩

/-- One more area above the others. -/
theorem concat (h : Tiling first areas area.first) : Tiling first (areas ++ [area]) area.last :=
  h.append ⟨rfl, rfl⟩

/-- The areas are as large as the bytes they tile. -/
theorem last_eq (h : Tiling first areas last) :
    last = first + ((areas.map Area.size).sum : Nat) := by
  induction areas generalizing first with
  | nil =>
    obtain rfl : first = last := h
    simp
  | cons area rest ih =>
    have hrest := ih h.2
    have hfirst := h.1
    simp only [List.map_cons, List.sum_cons, Area.last] at hrest ⊢
    omega

/-- No area lies below the first byte. -/
theorem first_le (h : Tiling first areas last) (hm : area ∈ areas) : first ≤ area.first := by
  induction areas generalizing first with
  | nil => simp at hm
  | cons head rest ih =>
    obtain ⟨rfl, hrest⟩ := h
    rcases List.mem_cons.mp hm with rfl | hm
    · exact Int.le_refl _
    · have hle := ih hrest hm
      unfold Area.last at hle
      omega

/-- No area ends behind the last byte. -/
theorem le_last (h : Tiling first areas last) (hm : area ∈ areas) : area.last ≤ last := by
  induction areas generalizing first with
  | nil => simp at hm
  | cons head rest ih =>
    rcases List.mem_cons.mp hm with rfl | hm
    · have hsum := last_eq h.2
      omega
    · exact ih h.2 hm

/-- Each area ends before the later ones begin. -/
theorem pairwise (h : Tiling first areas last) :
    areas.Pairwise fun lower upper => lower.last ≤ upper.first := by
  induction areas generalizing first with
  | nil => exact List.Pairwise.nil
  | cons head rest ih => exact List.pairwise_cons.mpr ⟨fun _ hm => first_le h.2 hm, ih h.2⟩

/-- Every byte from the first offset to the last is in one of the areas, and no other byte is. -/
theorem holds_iff (h : Tiling first areas last) (offset : Int) :
    (∃ area ∈ areas, area.Holds offset) ↔ first ≤ offset ∧ offset < last := by
  constructor
  · rintro ⟨area, hm, hlow, hhigh⟩
    exact ⟨Int.le_trans (first_le h hm) hlow, Int.lt_of_lt_of_le hhigh (le_last h hm)⟩
  · rintro ⟨hlow, hhigh⟩
    induction areas generalizing first with
    | nil =>
      obtain rfl : first = last := h
      omega
    | cons head rest ih =>
      obtain ⟨rfl, hrest⟩ := h
      by_cases hin : offset < head.last
      · exact ⟨head, by simp, hlow, hin⟩
      · obtain ⟨area, hm, hold⟩ := ih hrest (by omega)
        exact ⟨area, by simp [hm], hold⟩

end Tiling

/-! ## Histories of requests -/

/-- A draft and what it was asked for so far. -/
structure Ledger where
  /-- The draft. -/
  draft : FrameDraft
  /-- The areas of the parameters it has granted, the oldest one first. -/
  parameters : List Area
  /-- The areas of the locals it has granted, the newest one first. -/
  locals : List Area
  /-- The bytes of the arguments of the calls, the newest one first. -/
  calls : List Nat
deriving DecidableEq, Repr

namespace Ledger

/-- The ledger of a draft that was asked for nothing. -/
def start (label : Label) (level : Nat) : Ledger := ⟨FrameDraft.start label level, [], [], []⟩

/-- A request is put to the draft. If room is refused, the draft stays in use as it is. -/
def serve (ledger : Ledger) : Request → Ledger
  | .parameter size =>
    match ledger.draft.reserveParameter? size with
    | some (offset, draft) =>
      { ledger with draft, parameters := ledger.parameters ++ [⟨offset, size⟩] }
    | none => ledger
  | .storage size =>
    match ledger.draft.reserveLocal? size with
    | some (offset, draft) => { ledger with draft, locals := ⟨offset, size⟩ :: ledger.locals }
    | none => ledger
  | .call size =>
    { ledger with draft := ledger.draft.reserveArguments size, calls := size :: ledger.calls }

/-- The bytes of the parameters that were granted. -/
def parametersTotal (ledger : Ledger) : Nat := (ledger.parameters.map Area.size).sum

/-- The bytes of the locals that were granted. -/
def localsTotal (ledger : Ledger) : Nat := (ledger.locals.map Area.size).sum

/-- The areas of a frame are where its sizes say, and can be addressed. -/
structure InOrder (ledger : Ledger) : Prop where
  /-- The parameters tile the bytes from the frame pointer upwards. -/
  parameters : Tiling 0 ledger.parameters ledger.draft.frame.parametersSize
  /-- The locals tile the bytes from the frame pointer downwards. -/
  locals : Tiling (-ledger.draft.frame.localsSize) ledger.locals 0
  /-- There is room for the largest list of arguments, and no more. -/
  outgoing : ledger.draft.frame.outgoingSize = Layout.largest ledger.calls
  /-- The parameters can be addressed. -/
  parameters_le : ledger.draft.frame.parametersSize ≤ maxObjectSize
  /-- The locals and the two words below them can be addressed. -/
  locals_le : ledger.draft.frame.localsSize + 2 * wordSize ≤ maxObjectSize

variable {ledger : Ledger} {label : Label} {level : Nat}

theorem start_inOrder : (start label level).InOrder :=
  ⟨rfl, rfl, rfl, Nat.zero_le _, show 0 + 2 * wordSize ≤ maxObjectSize by decide⟩

/-- A request keeps the areas in order, whether it is granted or not. -/
theorem serve_inOrder (h : ledger.InOrder) (request : Request) :
    (ledger.serve request).InOrder := by
  cases request with
  | parameter size =>
    simp only [serve, reserveParameter?_eq]
    split_ifs with hfits
    · refine ⟨?_, h.locals, h.outgoing, hfits, h.locals_le⟩
      have htiles : Tiling 0 (ledger.parameters ++ [⟨ledger.draft.frame.parametersSize, size⟩])
          (Area.last ⟨ledger.draft.frame.parametersSize, size⟩) := h.parameters.concat
      simpa [Area.last] using htiles
    · exact h
  | storage size =>
    simp only [serve, reserveLocal?_eq]
    split_ifs with hfits
    · refine ⟨h.parameters, ⟨rfl, ?_⟩, h.outgoing, h.parameters_le, hfits⟩
      have hlast : Area.last ⟨-((ledger.draft.frame.localsSize + size : Nat) : Int), size⟩ =
          -ledger.draft.frame.localsSize := by
        simp only [Area.last]
        omega
      rw [hlast]
      exact h.locals
    · exact h
  | call size =>
    have hraised : max ledger.draft.frame.outgoingSize size =
        Layout.largest (size :: ledger.calls) := by
      rw [h.outgoing, Layout.largest_cons, Nat.max_comm]
    exact ⟨h.parameters, h.locals, hraised, h.parameters_le, h.locals_le⟩

/-- The areas are in order after every history of requests. -/
theorem serveAll_inOrder (h : ledger.InOrder) (requests : List Request) :
    (requests.foldl serve ledger).InOrder := by
  induction requests generalizing ledger with
  | nil => exact h
  | cons request rest ih => exact ih (serve_inOrder h request)

/-- The size of the parameters is what was granted. -/
theorem InOrder.parametersSize_eq (h : ledger.InOrder) :
    ledger.draft.frame.parametersSize = ledger.parametersTotal := by
  have hlast := h.parameters.last_eq
  unfold parametersTotal
  omega

/-- The size of the locals is what was granted. -/
theorem InOrder.localsSize_eq (h : ledger.InOrder) :
    ledger.draft.frame.localsSize = ledger.localsTotal := by
  have hlast := h.locals.last_eq
  unfold localsTotal
  omega

end Ledger

/-- What is true of a draft and its ledger at any time. -/
structure LaidOut (ledger : Ledger) : Prop where
  /-- The parameters follow one another from the frame pointer upwards. -/
  parameters : Tiling 0 ledger.parameters ledger.draft.frame.parametersSize
  /-- The locals follow one another from the frame pointer downwards. -/
  locals : Tiling (-ledger.draft.frame.localsSize) ledger.locals 0
  /-- No byte is in two parameters. -/
  parameters_apart :
    ledger.parameters.Pairwise fun older newer => older.last ≤ newer.first
  /-- No byte is in two locals. -/
  locals_apart : ledger.locals.Pairwise fun newer older => newer.last ≤ older.first
  /-- Each byte at or above the frame pointer and below the size of the parameters is in one of
  them, and no other byte is. -/
  parameters_tile : ∀ offset : Int, (∃ area ∈ ledger.parameters, area.Holds offset) ↔
    0 ≤ offset ∧ offset < ledger.draft.frame.parametersSize
  /-- Each byte below the frame pointer by at most the size of the locals is in one of them, and no
  other byte is. -/
  locals_tile : ∀ offset : Int, (∃ area ∈ ledger.locals, area.Holds offset) ↔
    -ledger.draft.frame.localsSize ≤ offset ∧ offset < 0
  /-- A parameter is refused exactly if the bytes of all parameters, this one included, are too
  many. -/
  parameter_refused_iff : ∀ size,
    ledger.draft.reserveParameter? size = none ↔ ledger.parametersTotal + size > maxObjectSize
  /-- A local is refused exactly if the bytes of all locals, this one and the two words below them
  included, are too many. -/
  local_refused_iff : ∀ size, ledger.draft.reserveLocal? size = none ↔
    ledger.localsTotal + size + 2 * wordSize > maxObjectSize
  /-- A parameter that is refused changes nothing. -/
  serve_parameter : ∀ size, ledger.draft.reserveParameter? size = none →
    ledger.serve (.parameter size) = ledger
  /-- A local that is refused changes nothing. -/
  serve_local : ∀ size, ledger.draft.reserveLocal? size = none →
    ledger.serve (.storage size) = ledger
  /-- There is room for the largest list of arguments, and no more. -/
  outgoing : ledger.draft.frame.outgoingSize = Layout.largest ledger.calls
  /-- The caller's frame pointer lies one word below the locals. -/
  oldFramePointer : ledger.draft.frame.oldFramePointerOffset =
    -(ledger.draft.frame.localsSize + wordSize : Int)
  /-- The return address lies two words below the locals. -/
  returnAddress : ledger.draft.frame.returnAddressOffset =
    -(ledger.draft.frame.localsSize + 2 * wordSize : Int)
  /-- The words are two, and a signed word holds both offsets without being at its lowest value. -/
  addressed : Frame.minOffset < ledger.draft.frame.returnAddressOffset ∧
    ledger.draft.frame.returnAddressOffset + wordSize =
      ledger.draft.frame.oldFramePointerOffset ∧
    ledger.draft.frame.oldFramePointerOffset < 0
  /-- No local has a byte of the two words. -/
  words_apart : ∀ area ∈ ledger.locals, ∀ offset, area.Holds offset →
    ledger.draft.frame.oldFramePointerOffset + wordSize ≤ offset ∧
      ledger.draft.frame.returnAddressOffset + wordSize ≤ offset

namespace Ledger

variable {ledger : Ledger}

/-- A ledger in order is one of a draft that is laid out well. -/
theorem InOrder.laidOut (h : ledger.InOrder) : LaidOut ledger := by
  have hlocals := h.locals_le
  have hold : ledger.draft.frame.oldFramePointerOffset =
      -(ledger.draft.frame.localsSize : Int) - wordSize := Frame.oldFramePointerOffset_eq hlocals
  have hreturn : ledger.draft.frame.returnAddressOffset =
      -(ledger.draft.frame.localsSize : Int) - 2 * wordSize := by
    unfold Frame.returnAddressOffset
    rw [hold]
    unfold Frame.minOffset wordSize
    unfold maxObjectSize wordSize at hlocals
    omega
  have hmin : Frame.minOffset < ledger.draft.frame.returnAddressOffset := by
    rw [hreturn]
    unfold Frame.minOffset wordSize
    unfold maxObjectSize wordSize at hlocals
    omega
  have hword : (0 : Int) < wordSize := by decide
  exact {
    parameters := h.parameters
    locals := h.locals
    parameters_apart := h.parameters.pairwise
    locals_apart := h.locals.pairwise
    parameters_tile := h.parameters.holds_iff
    locals_tile := h.locals.holds_iff
    parameter_refused_iff := by
      intro size
      rw [← h.parametersSize_eq]
      simp [reserveParameter?_eq]
    local_refused_iff := by
      intro size
      rw [← h.localsSize_eq]
      simp [reserveLocal?_eq]
    serve_parameter := by
      intro size hnone
      simp [serve, hnone]
    serve_local := by
      intro size hnone
      simp [serve, hnone]
    outgoing := h.outgoing
    oldFramePointer := by omega
    returnAddress := by omega
    addressed := ⟨hmin, by omega, by omega⟩
    words_apart := by
      intro area hm offset hholds
      have hbelow : -(ledger.draft.frame.localsSize : Int) ≤ offset :=
        Int.le_trans (h.locals.first_le hm) hholds.1
      omega }

end Ledger

/-- After any requests, a draft is laid out well: parameters and locals tile the bytes around the
frame pointer, room is refused exactly if it could not be addressed, and the two words below the
locals have offsets of their own. -/
theorem laidOut_of_requests (label : Label) (level : Nat) (requests : List Request) :
    LaidOut (requests.foldl Ledger.serve (Ledger.start label level)) :=
  (Ledger.serveAll_inOrder Ledger.start_inOrder requests).laidOut

/-- The largest local that fits leaves no room for another byte. -/
example : (([.storage 2147483639, .storage 1, .parameter 2147483647, .parameter 1, .call 12] :
    List Request).foldl Ledger.serve (Ledger.start (.named "f") 1)).draft.frame =
      ⟨.named "f", 1, 2147483647, 2147483639, 12⟩ := by decide +kernel

end Pins.FrameDraft
