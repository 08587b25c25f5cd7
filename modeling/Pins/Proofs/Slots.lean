import Pins.Proofs.Compiled
import Pins.Proofs.Evaluation
import Pins.Proofs.Execution

/-!
# The slots of variables

A function uses its own parameters and locals and the top-level variables. Each of these that is no
array is kept in one word of memory, its slot. The slots of two variables are apart
(`slot_injective`), and none is the word at the frame pointer, where a function leaves its result
(`slot_ne_result`), as long as the storage of top-level variables is apart from the frame and from
each other (`Apart`).
-/

namespace Pins

open Typing (HasType)

/-- A variable that a function uses itself: one of its parameters or locals, or a top-level
variable; arrays are left aside. -/
structure InScope (program : Lowering.Program) (owner id : NodeId) : Prop where
  /-- The variable stands in the function or outside all functions. -/
  place : program.arena.Encloses (some owner) id ∨ program.arena.Encloses none id
  /-- It is a variable or a parameter. -/
  kind : ∃ definition, program.arena.definition? id = some definition ∧
    (definition.kind = .var ∨ definition.kind = .parameter)
  /-- It is kept as a whole. -/
  scalar : ∃ type, HasType program.arena program.bindings id type ∧ type.isAtomic = true

/-- The label of the frame pointer. -/
def frameLabel : Label := .named "\x7bFP\x7d"

/-- The address of the word a variable is kept in. -/
def slot (address : Label → Int32) (layout : Layout) (id : NodeId) : Int32 :=
  match layout.accesses.get? id with
  | some (.global _ label) => address label
  | some (.inFrame _ offset _) | some (.parameter _ offset _) =>
    address frameLabel + Int32.ofInt offset
  | none => 0

/-- The store that a memory keeps. -/
def stored {scope : NodeId → Prop} (address : Label → Int32) (layout : Layout)
    (memory : Ir.Memory) : Store scope := fun cell => memory (slot address layout cell.1)

/-- The storage of top-level variables is apart from a frame and from each other. -/
structure Apart (layout : Layout) (frame : Frame) (address : Label → Int32) : Prop where
  /-- No storage lies among the arguments and locals of the frame. -/
  frame : ∀ {id size label}, layout.accesses.get? id = some (.global size label) →
    ∀ offset : Int, -(frame.localsSize : Int) ≤ offset → offset < frame.parametersSize →
      address label ≠ address frameLabel + Int32.ofInt offset
  /-- No two labels have one address. -/
  labels : ∀ {id other size size' label label'},
    layout.accesses.get? id = some (.global size label) →
    layout.accesses.get? other = some (.global size' label') → label ≠ label' →
      address label ≠ address label'

/-- A word of a frame: an offset that can be added to the frame pointer, other than that of the
result. -/
structure Frame.Word (frame : Frame) (offset : Int) : Prop where
  /-- The word lies in the locals or behind them. -/
  low : -(frame.localsSize : Int) ≤ offset
  /-- The word lies in the arguments or in front of them. -/
  high : offset + wordSize ≤ frame.parametersSize
  /-- It is apart from the word at the frame pointer. -/
  apart : offset + wordSize ≤ 0 ∨ (wordSize : Int) ≤ offset

variable {arena : Arena} {bindings : NodeTable NodeId} {program : Lowering.Program}
  {owner id other : NodeId} {frame : Frame} {address : Label → Int32} {type : Ty}

/-- Under a definition that keeps a value stands a written type. -/
theorem Arena.IsTree.kind?_written (h : arena.IsTree) {definition : Definition} {written : NodeId}
    (hk : arena.kind? id = some (.definition definition))
    (hw : definition.written? = some written) :
    ∃ item, arena.kind? written = some (.type item) := by
  obtain ⟨place, first, hs⟩ := h.exists_subtree hk
  have hplace : (Place.type, written) ∈ (NodeKind.definition definition).places := by
    cases definition <;> cases hw <;> exact List.mem_cons_self
  obtain ⟨_, hwritten, _, _⟩ := hs.child hk hplace
  obtain ⟨kind, hkind, hadmits, _, _⟩ := Arena.subtree_iff.mp hwritten
  cases kind with
  | type item => exact ⟨item, hkind⟩
  | definitions | definition | expression => cases hadmits

/-- What is written as a type, or keeps a value of a written type, is an atom or an array. -/
theorem Typing.HasType.isAtomic_or_isArray (h : HasType arena bindings id type)
    (ht : arena.IsTree) (hb : Binding.Bound arena bindings)
    (hv : (∃ item, arena.kind? id = some (.type item)) ∨
      ∃ definition written, arena.kind? id = some (.definition definition) ∧
        definition.written? = some written) :
    type.isAtomic = true ∨ type.isArray = true := by
  induction h with
  | @atom _ word _ => cases word <;> exact .inl rfl
  | array => exact .inr rfl
  | @typeName id target word type hk htarget _ ih =>
    have hright := hb id (Arena.index_lt_size hk)
    simp only [Binding.BoundRight, hk, Option.bind_some, NodeKind.accepted?, htarget] at hright
    obtain ⟨found, definition, he, hd, hkind⟩ := hright
    cases he
    have hdefinition := Arena.kind?_of_definition? hd
    cases definition with
    | type name written => exact ih (.inr ⟨_, written, hdefinition, rfl⟩)
    | function | var | parameter => simp [Definition.kind] at hkind
  | storage hk hw _ ih => exact ih (.inl (ht.kind?_written hk hw))
  | function hk | literal hk | name hk | routine hk | call hk | binary hk | unary hk | block hk
  | conditional hk | whileLoop hk | forLoop hk | whereClause hk =>
    obtain ⟨item, hk'⟩ | ⟨definition, written, hk', hw⟩ := hv
    · cases hk.symm.trans hk'
    · cases hk.symm.trans hk' <;> cases hw

/-- An atomic value takes a word. -/
theorem Ty.size?_of_isAtomic (h : type.isAtomic = true) : type.size? = some wordSize := by
  cases type <;> first | rfl | cases h

theorem Ty.argumentSize?_of_isAtomic (h : type.isAtomic = true) :
    type.argumentSize? = some wordSize := by
  cases type <;> first | rfl | cases h

namespace InScope

/-- What is in scope has an access of one word. -/
theorem exists_access (h : InScope program owner id) (hp : Lowering.Prepared program) :
    ∃ access, program.layout.accesses.get? id = some access ∧
      match access with
      | .global size _ | .inFrame size _ _ | .parameter size _ _ => size = wordSize := by
  obtain ⟨definition, hd, hkind⟩ := h.kind
  have hk := Arena.kind?_of_definition? hd
  obtain ⟨type, htype, hatomic⟩ := h.scalar
  obtain ⟨hsome, hmeasures⟩ := hp.laidOut.access id (Arena.index_lt_size hk)
  have hkeeps : (program.layout.accesses.get? id).isSome = true := by
    rw [hsome, hk]
    cases definition <;> simp_all [Definition.kind, NodeKind.keepsValue]
  obtain ⟨access, ha⟩ := Option.isSome_iff_exists.mp hkeeps
  obtain ⟨found, hfound, hsize⟩ := hmeasures access ha
  obtain rfl := htype.unique (hp.typed.sound hfound)
  refine ⟨access, ha, ?_⟩
  cases access <;> simp only at hsize ⊢
  · exact Option.some.inj (hsize.symm.trans (Ty.size?_of_isAtomic hatomic))
  · exact Option.some.inj (hsize.symm.trans (Ty.size?_of_isAtomic hatomic))
  · exact Option.some.inj (hsize.symm.trans (Ty.argumentSize?_of_isAtomic hatomic))

/-- A top-level variable has a label, and a parameter or local a word of the frame. -/
theorem access_cases (h : InScope program owner id) (hp : Lowering.Prepared program)
    (hf : program.layout.frames.get? owner = some frame) :
    (program.arena.Encloses none id ∧
      ∃ size label, program.layout.accesses.get? id = some (.global size label)) ∨
    (program.arena.Encloses (some owner) id ∧ ∃ access offset,
      program.layout.accesses.get? id = some access ∧ frame.Word offset ∧
      (access = .inFrame wordSize offset frame.level ∨
        access = .parameter wordSize offset frame.level)) := by
  rcases h.place with howner | hnone
  · obtain ⟨access, ha, hsize⟩ := h.exists_access hp
    have hholds := hp.laidOut.holds hp.tree howner hf ha
    have hframed := hp.laidOut.framed hf
    have hlink := hframed.link
    refine .inr ⟨howner, access, ?_⟩
    cases access with
    | global => exact hholds.elim
    | inFrame size offset level =>
      obtain ⟨rfl, hlow, hhigh⟩ := hholds
      simp only at hsize
      subst hsize
      exact ⟨offset, ha, ⟨hlow, by omega, .inl hhigh⟩, .inl rfl⟩
    | parameter size offset level =>
      obtain ⟨rfl, hlow, hhigh⟩ := hholds
      simp only at hsize
      subst hsize
      exact ⟨offset, ha, ⟨by omega, hhigh, .inr hlow⟩, .inr rfl⟩
  · obtain ⟨access, ha, _⟩ := h.exists_access hp
    obtain ⟨size, label, rfl⟩ := hp.laidOut.outside hnone ha
    exact .inl ⟨hnone, size, label, ha⟩

end InScope

namespace Frame.Word

variable {offset offset' : Int}

/-- Offsets of words can be added to the frame pointer. -/
theorem toInt_ofInt (h : frame.Word offset)
    (hlocals : frame.localsSize + 2 * wordSize ≤ maxObjectSize)
    (hparameters : frame.parametersSize ≤ maxObjectSize) :
    (Int32.ofInt offset).toInt = offset := by
  have hlow := h.low
  have hhigh := h.high
  simp only [maxObjectSize, Text.maxSigned, wordSize] at hlocals hparameters hhigh
  exact Int32.toInt_ofInt_of_le (by omega) (by omega)

/-- Words at different offsets have different addresses. -/
theorem eq_of_address (h : frame.Word offset) (h' : frame.Word offset')
    (hlocals : frame.localsSize + 2 * wordSize ≤ maxObjectSize)
    (hparameters : frame.parametersSize ≤ maxObjectSize) {base : Int32}
    (he : base + Int32.ofInt offset = base + Int32.ofInt offset') : offset = offset' := by
  have hsame := congrArg Int32.toInt ((Int32.add_right_inj base).mp he)
  rwa [h.toInt_ofInt hlocals hparameters, h'.toInt_ofInt hlocals hparameters] at hsame

/-- No word is the one at the frame pointer. -/
theorem address_ne (h : frame.Word offset)
    (hlocals : frame.localsSize + 2 * wordSize ≤ maxObjectSize)
    (hparameters : frame.parametersSize ≤ maxObjectSize) (base : Int32) :
    base + Int32.ofInt offset ≠ base := by
  intro he
  have hzero : Int32.ofInt offset = 0 := by
    rw [← Int32.add_right_inj base, he, Int32.add_zero]
  have hoffset := h.toInt_ofInt hlocals hparameters
  rw [hzero] at hoffset
  have hapart := h.apart
  have hword : 0 < wordSize := by decide
  change 0 = offset at hoffset
  omega

end Frame.Word

/-- A slot that is labelled has the address of its label. -/
theorem slot_global {layout : Layout} {size : Nat} {label : Label}
    (ha : layout.accesses.get? id = some (.global size label)) :
    slot address layout id = address label := by
  rw [slot, ha]

/-- A slot in a frame is at its offset from the frame pointer. -/
theorem slot_frame {layout : Layout} {access : Access} {offset : Int} {size level : Nat}
    (ha : layout.accesses.get? id = some access)
    (hs : access = .inFrame size offset level ∨ access = .parameter size offset level) :
    slot address layout id = address frameLabel + Int32.ofInt offset := by
  rcases hs with rfl | rfl <;> rw [slot, ha]

/-- No variable in scope is kept at the frame pointer. -/
theorem slot_ne_result (hp : Lowering.Prepared program)
    (hf : program.layout.frames.get? owner = some frame)
    (hapart : Apart program.layout frame address) (h : InScope program owner id) :
    slot address program.layout id ≠ address frameLabel := by
  have hframed := hp.laidOut.framed hf
  rcases h.access_cases hp hf with ⟨_, size, label, ha⟩ | ⟨_, access, offset, ha, hword, hs⟩
  · have hpositive : (0 : Int) < frame.parametersSize := by
      have hlink := hframed.link
      simp only [wordSize] at hlink
      omega
    have hne := hapart.frame ha 0 (by omega) hpositive
    rw [slot_global ha]
    change address label ≠ address frameLabel + 0 at hne
    rwa [Int32.add_zero] at hne
  · rw [slot_frame ha hs]
    exact hword.address_ne hframed.locals hframed.parameters _

/-- No byte of the frame belongs to two variables in scope. -/
theorem InScope.apart (h : InScope program owner id) (h' : InScope program owner other)
    (hp : Lowering.Prepared program) (hf : program.layout.frames.get? owner = some frame)
    (hne : id ≠ other) {access access' : Access}
    (ha : program.layout.accesses.get? id = some access)
    (ha' : program.layout.accesses.get? other = some access') : access.Apart access' := by
  rcases h.access_cases hp hf with ⟨_, size, label, hglobal⟩ | ⟨hin, _⟩
  · cases ha.symm.trans hglobal
    intro span span' hs
    cases hs
  · rcases h'.access_cases hp hf with ⟨_, size, label, hglobal⟩ | ⟨hin', _⟩
    · cases ha'.symm.trans hglobal
      intro span span' _ hs'
      cases hs'
    · obtain ⟨_, kind, hk, _, _⟩ := hin.isFunction
      obtain ⟨_, _, hsub⟩ := hp.tree.exists_subtree hk
      exact (hp.laidOut.framed hf).placed.apart
        ⟨Nat.zero_le _, (hin.inside hp.tree hsub).2, hin, ha⟩
        ⟨Nat.zero_le _, (hin'.inside hp.tree hsub).2, hin', ha'⟩ hne

/-- No byte of a variable in scope belongs to the word at the frame pointer. -/
theorem InScope.apart_result (h : InScope program owner id) (hp : Lowering.Prepared program)
    (hf : program.layout.frames.get? owner = some frame) {access : Access}
    (ha : program.layout.accesses.get? id = some access) (level : Nat) :
    access.Apart (.inFrame wordSize 0 level) := by
  rcases h.access_cases hp hf with ⟨_, size, label, ha'⟩ | ⟨_, found, offset, ha', hword, hs⟩
  · cases ha.symm.trans ha'
    intro span span' hs
    cases hs
  · cases ha.symm.trans ha'
    have hapart := hword.apart
    rcases hs with rfl | rfl
    all_goals
      rintro span span' ⟨⟩ ⟨⟩
      simp only
      omega

/-- No two variables in scope are kept at one address. -/
theorem slot_injective {compilation : Compilation} {root : NodeId} {members : List NodeId}
    {labels rest : LabelSupply} (hc : Compiled compilation root members labels rest)
    (hf : compilation.program.layout.frames.get? owner = some frame)
    (hapart : Apart compilation.program.layout frame address)
    (h : InScope compilation.program owner id) (h' : InScope compilation.program owner other)
    (he : slot address compilation.program.layout id =
      slot address compilation.program.layout other) : id = other := by
  have hp := hc.prepared
  have hframed := hp.laidOut.framed hf
  have hmixed : ∀ {size label offset}, frame.Word offset → ∀ {global},
      compilation.program.layout.accesses.get? global = some (.global size label) →
      address label ≠ address frameLabel + Int32.ofInt offset := by
    intro size label offset hword global ha
    have hhigh := hword.high
    have hpositive : 0 < wordSize := by decide
    exact hapart.frame ha offset hword.low (by omega)
  rcases h.access_cases hp hf with ⟨_, size, label, ha⟩ | ⟨_, access, offset, ha, hword, hs⟩
  · rw [slot_global ha] at he
    rcases h'.access_cases hp hf with
      ⟨_, size', label', ha'⟩ | ⟨_, access', offset', ha', hword', hs'⟩
    · rw [slot_global ha'] at he
      rcases eq_or_ne label label' with rfl | hne
      · exact hc.access_unique ha ha'
      · exact absurd he (hapart.labels ha ha' hne)
    · rw [slot_frame ha' hs'] at he
      exact absurd he (hmixed hword' ha)
  · rw [slot_frame ha hs] at he
    rcases h'.access_cases hp hf with
      ⟨_, size', label', ha'⟩ | ⟨_, access', offset', ha', hword', hs'⟩
    · rw [slot_global ha'] at he
      exact absurd he.symm (hmixed hword ha')
    · rw [slot_frame ha' hs'] at he
      rcases eq_or_ne id other with rfl | hne
      · rfl
      · obtain rfl := hword.eq_of_address hword' hframed.locals hframed.parameters he
        have hspan : access.span? = some (offset, offset + wordSize) := by
          rcases hs with rfl | rfl <;> rfl
        have hspan' : access'.span? = some (offset, offset + wordSize) := by
          rcases hs' with rfl | rfl <;> rfl
        have hdisjoint := h.apart h' hp hf hne ha ha' _ _ hspan hspan'
        have hpositive : 0 < wordSize := by decide
        simp only at hdisjoint
        omega

end Pins
