import Pins.Proofs.Kept

/-!
# Where a call saves the frame pointer

At a call, the frame pointer of the callee is the stack pointer of the caller: outgoing arguments
begin where the callee finds its incoming ones. The frame of the callee has a word for the caller's
frame pointer, below its locals (`Frame.oldFramePointerOffset`). A call counts the offset of that
word in the wrong direction: it saves the frame pointer as far above the stack pointer as the word
lies below it (`Compilation.saves_above`). No call of a function saves it in its word, and if the
arguments of the callee reach far enough, it is saved among them.
-/

namespace Pins

/-- The address that code computes over the integers, given the address of every label. Only sums
and differences of constants and labels are addresses here. -/
def Ir.Expr.address? (labels : Label → Int) : Ir.Expr → Option Int
  | .constant value => some value
  | .name label => some (labels label)
  | .binop .add left right => do return (← left.address? labels) + (← right.address? labels)
  | .binop .sub left right => do return (← left.address? labels) - (← right.address? labels)
  | _ => none

/-- The code of a call that saves the frame pointer at an address first. -/
def Ir.Tree.savesAt? : Ir.Tree → Option Ir.Expr
  | .expr (.eseq (.move (.memory address) (.name (.named "\x7bFP\x7d"))) (.call ..)) => some address
  | _ => none

namespace Frame

/-- A word at an address has a byte in common with the bytes from one address to another. -/
def Meets (address first last : Int) : Prop := first < address + wordSize ∧ address < last

instance (address first last : Int) : Decidable (Meets address first last) :=
  inferInstanceAs (Decidable (_ ∧ _))

variable {frame : Frame}

/-- The word for the caller's frame pointer lies directly below the locals. -/
theorem oldFramePointerOffset_eq (h : frame.localsSize + 2 * wordSize ≤ maxObjectSize) :
    frame.oldFramePointerOffset = -(frame.localsSize : Int) - wordSize := by
  unfold maxObjectSize Text.maxSigned at h
  unfold oldFramePointerOffset minOffset Text.maxSigned
  omega

end Frame

namespace Compilation

variable {file source : String} {compilation : Compilation}

/-- Every call of a function saves the frame pointer at an address that lies at or above the stack
pointer, by as much as the callee's word for it lies below. So it is never saved in that word, which
ends where the callee's locals begin, and it is saved among the callee's arguments if and only if
these reach further than the locals and one word. -/
theorem saves_above (h : ofSource file source = .ok compilation) {id : NodeId} {callee : String}
    {arguments : List NodeId}
    (hk : compilation.program.arena.kind? id = some (.expression (.call callee arguments)))
    (hr : Builtin.isRoutine callee = false) :
    ∃ function frame tree address, compilation.program.bindings.get? id = some function ∧
      compilation.program.layout.frames.get? function = some frame ∧
      compilation.trees.get? id = some tree ∧ tree.savesAt? = some address ∧
      ∀ labels : Label → Int, ∀ pointer, labels (.named "\x7bSP\x7d") = pointer →
        ∃ saved, address.address? labels = some saved ∧
          saved = pointer - frame.oldFramePointerOffset ∧
          saved = pointer + frame.localsSize + wordSize ∧
          pointer + frame.oldFramePointerOffset + wordSize = pointer - frame.localsSize ∧
          ¬Frame.Meets saved (pointer + frame.oldFramePointerOffset) pointer ∧
          (Frame.Meets saved pointer (pointer + frame.parametersSize) ↔
            frame.localsSize + wordSize < frame.parametersSize) := by
  obtain ⟨_, _, function, frame, codes, _, _, hb, hf, ht⟩ := exists_userCall h hk hr
  obtain ⟨root, members, labels, rest, hc⟩ := ofSource_compiled h
  have hoffset := Frame.oldFramePointerOffset_eq (hc.prepared.laidOut.framed hf).locals
  refine ⟨function, frame, _, _, hb, hf, ht, rfl, fun labels pointer hp => ?_⟩
  refine ⟨pointer - frame.oldFramePointerOffset, by rw [← hp]; rfl, rfl, ?_⟩
  unfold Frame.Meets
  rw [hoffset]
  have hword : 0 < wordSize := by decide
  omega

/-- In a program whose only call hands over one argument. -/
theorem saves_above_of_call :
    ∃ compilation frame, ofSource "test" "fun g(a: integer): integer = a; fun f(): integer = g(1)" =
        .ok compilation ∧ compilation.program.layout.frames.get? ⟨4⟩ = some frame ∧
      ∃ tree address, compilation.trees.get? ⟨7⟩ = some tree ∧ tree.savesAt? = some address ∧
        address.address? (fun _ => 0) = some (-frame.oldFramePointerOffset) := by
  obtain ⟨compilation, h, hk, hg⟩ : ∃ compilation,
      ofSource "test" "fun g(a: integer): integer = a; fun f(): integer = g(1)" =
          .ok compilation ∧
        compilation.program.arena.kind? ⟨7⟩ = some (.expression (.call "g" [⟨6⟩])) ∧
        compilation.program.bindings.get? ⟨7⟩ = some ⟨4⟩ :=
    exists_of_any (by decide +kernel)
  obtain ⟨function, frame, tree, address, hb, hf, ht, hs, hsaved⟩ := saves_above h hk (by decide)
  obtain rfl : function = ⟨4⟩ := Option.some.inj (hb.symm.trans hg)
  obtain ⟨saved, ha, he, _⟩ := hsaved (fun _ => 0) 0 rfl
  rw [he, Int.zero_sub] at ha
  exact ⟨compilation, frame, h, hf, tree, address, ht, hs, ha⟩

/-- The frame pointer is saved over the only argument, and not in the word of the callee for it. -/
theorem saved_over_argument :
    ∃ compilation frame, ofSource "test" "fun g(a: integer): integer = a; fun f(): integer = g(1)" =
        .ok compilation ∧
      compilation.program.arena.kind? ⟨7⟩ = some (.expression (.call "g" [⟨6⟩])) ∧
      compilation.program.bindings.get? ⟨7⟩ = some ⟨4⟩ ∧
      compilation.program.layout.frames.get? ⟨4⟩ = some frame ∧
      ((compilation.trees.get? ⟨7⟩).bind Ir.Tree.savesAt?).bind (Ir.Expr.address? fun _ => 100) =
        some 104 ∧
      104 ≠ 100 + frame.oldFramePointerOffset ∧
      Frame.Meets 104 100 (100 + frame.parametersSize) := by
  obtain ⟨compilation, h, hk, hb, hf, hs⟩ : ∃ compilation,
      ofSource "test" "fun g(a: integer): integer = a; fun f(): integer = g(1)" =
          .ok compilation ∧
        compilation.program.arena.kind? ⟨7⟩ = some (.expression (.call "g" [⟨6⟩])) ∧
        compilation.program.bindings.get? ⟨7⟩ = some ⟨4⟩ ∧
        compilation.program.layout.frames.get? ⟨4⟩ = some ⟨.named "g", 1, 8, 0, 0⟩ ∧
        ((compilation.trees.get? ⟨7⟩).bind Ir.Tree.savesAt?).bind (Ir.Expr.address? fun _ => 100) =
          some 104 :=
    exists_of_any (by decide +kernel)
  exact ⟨compilation, _, h, hk, hb, hf, hs, by decide, by decide⟩

end Compilation

end Pins
