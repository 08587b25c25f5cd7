import Pins.Proofs.ExactLayout
import Pins.Proofs.RoutineLabels
import Pins.Proofs.StaticLinks
import Pins.Proofs.WellFormed

/-!
# Where arrays are kept

An array is kept where its definition is: a variable outside all functions has a label of its name,
a variable in a function is a local of this function, and for a parameter the caller hands over the
address. Lowering a name makes the address of all three, following as many static links as there are
levels between the name and the function of the definition (`Compilation.bases`).
-/

namespace Pins

namespace Arena

variable {arena : Arena} {id : NodeId} {outer : Option NodeId}

/-- A parameter stands in the function that has it. -/
theorem IsTree.exists_owner_of_parameter (ht : arena.IsTree) {name : String} {written : NodeId}
    (hk : arena.kind? id = some (.definition (.parameter name written)))
    (he : arena.Encloses outer id) :
    ∃ owner, outer = some owner ∧ (arena.kind? owner).any NodeKind.isFunction = true ∧
      id ∈ arena.parametersOf owner := by
  cases he with
  | root hr =>
    obtain ⟨root, hroot, _, hs⟩ := ht
    obtain rfl := Option.some.inj (hr.symm.trans hroot)
    obtain ⟨kind, hkind, hadmits, _⟩ := subtree_iff.mp hs
    cases hk.symm.trans hkind
    cases hadmits
  | @child _ parent _ kind h hparent hm =>
    obtain ⟨place, hp, ⟨found, hfound, hadmits⟩, _⟩ := ht.exists_child hparent hm
    cases hk.symm.trans hfound
    obtain rfl : place = .parameter := by cases place <;> first | rfl | cases hadmits
    obtain ⟨word, parameters, result, body, rfl, hmember⟩ :
        ∃ word parameters result body,
          kind = .definition (.function word parameters result body) ∧ id ∈ parameters := by
      cases kind with
      | definitions | type => simp [NodeKind.places] at hp
      | definition item =>
        cases item with
        | function word parameters result body =>
          exact ⟨word, parameters, result, body, rfl, by simpa [NodeKind.places] using hp⟩
        | var | type | parameter => simp [NodeKind.places] at hp
      | expression item => cases item <;> simp [NodeKind.places] at hp
    exact ⟨parent, rfl, by rw [hparent]; rfl, by simpa [parametersOf, definition?, hparent]⟩

end Arena

namespace Layout

variable {arena : Arena} {types : NodeTable Ty} {layout : Layout} {id owner : NodeId} {depth : Nat}

/-- Every value of a list is kept in a slot. -/
theorem Tiles.exists_slot {accesses : NodeTable Access} {slot : Nat → Nat → Access}
    {start stop : Nat} {list : List NodeId} (h : Tiles types accesses slot start list stop)
    (hm : id ∈ list) : ∃ ahead size, accesses.get? id = some (slot ahead size) := by
  induction h with
  | nil => cases hm
  | cons _ ha _ ih =>
    rcases List.mem_cons.mp hm with rfl | hm
    · exact ⟨_, _, ha⟩
    · exact ih hm

namespace Exact

/-- A function has a frame at its level, which is tiled. -/
theorem exists_frame_of_level (h : Exact arena types layout)
    (hf : (arena.kind? owner).any NodeKind.isFunction = true)
    (hl : arena.Level (some owner) depth) : ∃ frame, layout.frames.get? owner = some frame ∧
      frame.level = depth ∧ Tiled arena types layout.accesses owner frame := by
  cases hl with
  | inside he hl => exact h.frame hf he hl

/-- A variable in a function is a local of it. -/
theorem exists_inFrame (h : Exact arena types layout) (ht : arena.IsTree) {name : String}
    {written : NodeId} (hk : arena.kind? id = some (.definition (.var name written)))
    (he : arena.Encloses (some owner) id) (hl : arena.Level (some owner) depth) :
    ∃ size offset, layout.accesses.get? id = some (.inFrame size offset depth) := by
  obtain ⟨frame, _, rfl, htiled⟩ := h.exists_frame_of_level he.any_isFunction hl
  have hm := (ht.mem_localsOf_iff he.any_isFunction).mpr ⟨he, by rw [hk]; rfl⟩
  obtain ⟨_, _, ha⟩ := htiled.locals.exists_slot hm
  exact ⟨_, _, ha⟩

/-- A parameter is an argument of its function. -/
theorem exists_parameter (h : Exact arena types layout) (hm : id ∈ arena.parametersOf owner)
    (hf : (arena.kind? owner).any NodeKind.isFunction = true)
    (hl : arena.Level (some owner) depth) :
    ∃ size offset, layout.accesses.get? id = some (.parameter size offset depth) := by
  obtain ⟨frame, _, rfl, htiled⟩ := h.exists_frame_of_level hf hl
  obtain ⟨_, _, ha⟩ := htiled.parameters.exists_slot hm
  exact ⟨_, _, ha⟩

end Exact

end Layout

namespace Lowering

/-- The code of the address of the array that a definition keeps, seen from a level. -/
inductive Bases (program : Program) (level : Nat) (definition : NodeId) : Ir.Expr → Prop where
  /-- An array outside all functions has a label. -/
  | global {name : String} {written : NodeId}
      (hk : program.arena.kind? definition = some (.definition (.var name written)))
      (he : program.arena.Encloses none definition) :
      Bases program level definition (.name (.named name))
  /-- An array in a function lies in the frame of the function, to which static links lead. -/
  | inFrame {name : String} {written owner : NodeId} {size depth : Nat} {offset : Int}
      (hk : program.arena.kind? definition = some (.definition (.var name written)))
      (he : program.arena.Encloses (some owner) definition)
      (hl : program.arena.Level (some owner) depth) (hle : depth ≤ level)
      (ha : program.layout.accesses.get? definition = some (.inFrame size offset depth)) :
      Bases program level definition
        (.binop .add (Ir.staticLink (level - depth)) (.constant offset))
  /-- The address of a parameter is kept in the frame of the function. -/
  | parameter {name : String} {written owner : NodeId} {size depth : Nat} {offset : Int}
      (hk : program.arena.kind? definition = some (.definition (.parameter name written)))
      (he : program.arena.Encloses (some owner) definition)
      (hl : program.arena.Level (some owner) depth) (hle : depth ≤ level)
      (ha : program.layout.accesses.get? definition = some (.parameter size offset depth)) :
      Bases program level definition
        (.memory (.binop .add (Ir.staticLink (level - depth)) (.constant offset)))

end Lowering

namespace Compilation

open Lowering (Bases slotAddress_eq valueAt)

variable {file source word : String} {compilation : Compilation} {id definition : NodeId}
  {outer owner : Option NodeId} {level depth : Nat} {access : Access}

/-- The layout of what compiles is exact. -/
theorem ofSource_exact (h : ofSource file source = .ok compilation) :
    Layout.Exact compilation.program.arena compilation.program.types
      compilation.program.layout := by
  obtain ⟨_, _, _, _, hc⟩ := ofSource_compiled h
  exact hc.prepared.laidOut.exact hc.prepared.tree hc.labelled (ofSource_tiled h)

/-- The function that a definition stands in is at no deeper level than a name for it. -/
theorem depth_le_level (h : ofSource file source = .ok compilation)
    (hb : compilation.program.bindings.get? id = some definition)
    (he : compilation.program.arena.Encloses outer id)
    (hl : compilation.program.arena.Level outer level)
    (howner : compilation.program.arena.Encloses owner definition)
    (hd : compilation.program.arena.Level owner depth) : depth ≤ level := by
  have hp := ofSource_prepared h
  obtain ⟨_, he', _, howner', haround⟩ := hp.lexical id definition hb
  obtain rfl := he.unique hp.tree he'
  obtain rfl := howner.unique hp.tree howner'
  exact haround.le hp.tree hl hd

/-- A name for an array is lowered to the address of the array. -/
theorem bases (h : ofSource file source = .ok compilation)
    (hk : compilation.program.arena.kind? id = some (.expression (.name word)))
    (hb : compilation.program.bindings.get? id = some definition)
    (ha : compilation.program.layout.accesses.get? definition = some access)
    (he : compilation.program.arena.Encloses outer id)
    (hl : compilation.program.arena.Level outer level) {type : Ty} (ht : type.isArray = true) :
    Bases compilation.program level definition (valueAt level type access) := by
  have hp := ofSource_prepared h
  have hexact := ofSource_exact h
  obtain ⟨_, item, hfound, hd, hkind⟩ := hp.bound.exists_target hk rfl
  cases hb.symm.trans hfound
  obtain ⟨owner, howner⟩ := hp.tree.exists_encloses hd
  obtain ⟨depth, hdepth⟩ := howner.exists_level
  have hle := depth_le_level h hb he hl howner hdepth
  cases item with
  | function | type => simp [Definition.kind] at hkind
  | var name written =>
    cases owner with
    | none =>
      obtain ⟨_, size, _, _, ha'⟩ :=
        hexact.outside howner (by rw [Arena.definition?, hd]) (by rw [hd]; rfl)
      cases ha.symm.trans ha'
      rw [valueAt, if_pos ht]
      exact .global hd howner
    | some owner =>
      obtain ⟨size, offset, ha'⟩ := hexact.exists_inFrame hp.tree hd howner hdepth
      cases ha.symm.trans ha'
      rw [valueAt, if_pos ht, slotAddress_eq hle]
      exact .inFrame hd howner hdepth hle ha'
  | parameter name written =>
    obtain ⟨owner, rfl, hf, hm⟩ := hp.tree.exists_owner_of_parameter hd howner
    obtain ⟨size, offset, ha'⟩ := hexact.exists_parameter hm hf hdepth
    cases ha.symm.trans ha'
    rw [valueAt, slotAddress_eq hle]
    exact .parameter hd howner hdepth hle ha'

end Compilation

end Pins
