import Pins.Proofs.Kept
import Pins.Proofs.Operands
import Pins.Proofs.Slots

/-!
# A function at work

Code is run over memory, and expressions are evaluated over stores. A memory keeps a store, so what
code does can be seen on stores: `Site.Follows` says that steps on memory do exactly what is meant
on stores. The code of a name reads the slot of its variable (`Site.Fits.reads_name`), and what is
put into a slot is put into the variable and into no other (`Site.Fits.view_update`).
-/

namespace Pins

open Typing (HasType WellTyped)
open Ir (Computes Executes Reaches Straight Memory)

/-- The expression is a name. -/
def Expression.isName : Expression → Bool
  | name _ => true
  | _ => false

/-- The expression is no call and no string, and if it assigns, it assigns to a name. -/
def Expression.isPlain (arena : Arena) : Expression → Bool
  | call .. | literal _ .string => false
  | binary .assign target _ => (arena.expression? target).any isName
  | _ => true

/-- An expression of a function is plain: it is no call, no string and no array, it assigns to names
only, and it names only what stands in the function itself or at the top. -/
structure Plain (program : Lowering.Program) (owner id : NodeId) : Prop where
  /-- It is no array. -/
  scalar : ∀ {type}, HasType program.arena program.bindings id type → type.isArray = false
  /-- It is no call and no string, and assigns to names only. -/
  form : ∀ {item}, program.arena.expression? id = some item → item.isPlain program.arena = true
  /-- What it names stands in the function or outside all functions. -/
  place : ∀ {word target}, program.arena.kind? id = some (.expression (.name word)) →
    program.bindings.get? id = some target →
      program.arena.Encloses (some owner) target ∨ program.arena.Encloses none target

/-- An assignment that is plain has a name as its target. -/
theorem Plain.target {program : Lowering.Program} {owner id target source : NodeId}
    (h : Plain program owner id)
    (hk : program.arena.kind? id = some (.expression (.binary .assign target source))) :
    ∃ word, program.arena.kind? target = some (.expression (.name word)) := by
  have hform := h.form (Arena.expression?_of_kind? hk)
  rw [Expression.isPlain, Option.any_eq_true] at hform
  obtain ⟨item, he, hname⟩ := hform
  cases item with
  | name word => exact ⟨word, Arena.kind?_of_expression? he⟩
  | _ => cases hname

/-- A function of a program at work, with addresses for the labels. -/
structure Site where
  /-- The program. -/
  program : Lowering.Program
  /-- The function. -/
  owner : NodeId
  /-- The addresses of labels, that of the frame pointer included. -/
  address : Label → Int32

namespace Site

/-- The variables that the function uses. -/
abbrev Scope (site : Site) : NodeId → Prop := InScope site.program site.owner

/-- The store that a memory keeps. -/
abbrev view (site : Site) (memory : Memory) : Store site.Scope :=
  stored site.address site.program.layout memory

/-- Logical variables are kept as truth values. -/
abbrev Sane (site : Site) (memory : Memory) : Prop :=
  Truthful site.program.arena site.program.bindings (site.view memory)

/-- An expression evaluates to a word. -/
abbrev Yields (site : Site) (id : NodeId) (before : Store site.Scope) (value : Int32)
    (after : Store site.Scope) : Prop :=
  Pins.Yields site.program.arena site.program.bindings id before value after

/-- The slots of the function are where lowering expects them. -/
structure Fits (site : Site) (frame : Frame) : Prop where
  /-- The program was prepared. -/
  prepared : Lowering.Prepared site.program
  /-- The function has the frame. -/
  framed : site.program.layout.frames.get? site.owner = some frame
  /-- No two variables are kept at one address. -/
  distinct : ∀ {id other}, site.Scope id → site.Scope other →
    slot site.address site.program.layout id = slot site.address site.program.layout other →
      id = other

/-- An expression is computed with plain expressions only. -/
def AllPlain (site : Site) (id : NodeId) : Prop :=
  ∀ part ∈ site.program.arena.own id, Plain site.program site.owner part

/-- Steps on memory do exactly what is meant on stores, as long as logical variables have truth
values: whatever is run is meant, and whatever is meant is run. -/
structure Follows {α : Type} (site : Site) (run : Memory → α → Memory → Prop)
    (meant : Store site.Scope → α → Store site.Scope → Prop) : Prop where
  /-- What is run is meant. -/
  sound : ∀ {before result after}, site.Sane before → run before result after →
    meant (site.view before) result (site.view after) ∧ site.Sane after
  /-- What is meant is run. -/
  complete : ∀ {before result store}, site.Sane before → meant (site.view before) result store →
    ∃ after, run before result after ∧ site.view after = store ∧ site.Sane after

/-- Code computes exactly what an expression evaluates to. -/
abbrev Agrees (site : Site) (id : NodeId) (code : Ir.Expr) : Prop :=
  site.Follows (Computes site.address code) (site.Yields id)

/-- Code reads the slot of a variable. -/
def Reads (site : Site) (cell : Cell site.Scope) (code : Ir.Expr) : Prop :=
  ∃ place, code = .memory place ∧ ∀ {before word after},
    Computes site.address place before word after ↔
      word = slot site.address site.program.layout cell.1 ∧ after = before

variable {site : Site} {frame : Frame} {id : NodeId} {code : Ir.Expr} {before after : Memory}
  {value : Int32} {cell : Cell site.Scope}

/-- What is put into a slot is put into the variable. -/
theorem Fits.view_update (h : site.Fits frame) (memory : Memory) (cell : Cell site.Scope)
    (value : Int32) :
    site.view (Function.update memory (slot site.address site.program.layout cell.1) value) =
      Function.update (site.view memory) cell value := by
  funext other
  rcases eq_or_ne other cell with rfl | hne
  · rw [view, stored, Function.update_self, Function.update_self]
  · have hslot : slot site.address site.program.layout other.1 ≠
        slot site.address site.program.layout cell.1 := fun he =>
      hne (Subtype.ext (h.distinct other.2 cell.2 he))
    rw [view, stored, Function.update_of_ne hslot, Function.update_of_ne hne]
    rfl

/-- All is typed. -/
theorem Fits.wellTyped (h : site.Fits frame) :
    WellTyped site.program.arena site.program.bindings := h.prepared.typed.wellTyped

/-- Code agrees with an expression, if it computes a value exactly if this is one of the expression;
truth values are kept by evaluation. -/
theorem Fits.agrees (h : site.Fits frame)
    (hsound : ∀ {before value after}, site.Sane before →
      Computes site.address code before value after →
        site.Yields id (site.view before) value (site.view after))
    (hcomplete : ∀ {before value store}, site.Sane before →
      site.Yields id (site.view before) value store →
        ∃ after, Computes site.address code before value after ∧ site.view after = store) :
    site.Agrees id code := by
  have hsane : ∀ {before value after}, site.Sane before →
      site.Yields id (site.view before) value (site.view after) → site.Sane after :=
    fun hs hy => (hy.truthful h.wellTyped trivial hs).1
  constructor
  · intro before value after hs hc
    have hy := hsound hs hc
    exact ⟨hy, hsane hs hy⟩
  · intro before value store hs hy
    obtain ⟨after, hc, rfl⟩ := hcomplete hs hy
    exact ⟨after, hc, rfl, hsane hs hy⟩

namespace Reads

/-- Reading a slot finds the word of the variable. -/
theorem computes_iff (h : site.Reads cell code) :
    Computes site.address code before value after ↔
      value = site.view before cell ∧ after = before := by
  obtain ⟨place, rfl, hplace⟩ := h
  rw [Ir.computes_memory_iff]
  constructor
  · rintro ⟨word, hc, rfl⟩
    obtain ⟨rfl, rfl⟩ := hplace.mp hc
    exact ⟨rfl, rfl⟩
  · rintro ⟨rfl, rfl⟩
    exact ⟨_, hplace.mpr ⟨rfl, rfl⟩, rfl⟩

/-- The word of a variable is computed, and nothing is changed. -/
theorem computes (h : site.Reads cell code) (before : Memory) :
    Computes site.address code before (site.view before cell) before :=
  h.computes_iff.mpr ⟨rfl, rfl⟩

/-- Moving to a slot sets the variable. -/
theorem executes_move_iff (h : site.Reads cell code) {source : Ir.Expr} :
    Executes site.address (.move code source) before none after ↔
      ∃ value memory, Computes site.address source before value memory ∧
        after = Function.update memory (slot site.address site.program.layout cell.1) value := by
  obtain ⟨place, rfl, hplace⟩ := h
  rw [Ir.executes_move_iff]
  constructor
  · rintro ⟨word, between, value, memory, hc, hs, rfl⟩
    obtain ⟨rfl, rfl⟩ := hplace.mp hc
    exact ⟨value, memory, hs, rfl⟩
  · rintro ⟨value, memory, hs, rfl⟩
    exact ⟨_, before, value, memory, hplace.mpr ⟨rfl, rfl⟩, hs, rfl⟩

end Reads

/-- The address of a slot in the frame of the function itself. -/
theorem computes_slotAddress_iff {level : Nat} {offset : Int} {word : Int32} :
    Computes site.address (Lowering.slotAddress level level offset) before word after ↔
      word = site.address frameLabel + Int32.ofInt offset ∧ after = before := by
  have hcode : Lowering.slotAddress level level offset =
      .binop .add (.name frameLabel) (.constant offset) := by
    rw [Lowering.slotAddress, Nat.sub_self]
    rfl
  rw [hcode, Ir.computes_binop_iff]
  simp only [Ir.computes_name_iff, Ir.computes_constant_iff]
  constructor
  · rintro ⟨_, _, _, ⟨rfl, rfl⟩, ⟨rfl, rfl⟩, ho⟩
    cases ho
    exact ⟨rfl, rfl⟩
  · rintro ⟨rfl, rfl⟩
    exact ⟨_, _, _, ⟨rfl, rfl⟩, ⟨rfl, rfl⟩, rfl⟩

/-- The code of the value kept for a variable in scope reads its slot. -/
theorem Fits.reads_valueAt (h : site.Fits frame) (cell : Cell site.Scope) {type : Ty}
    {access : Access} (ht : site.program.types.get? cell.1 = some type)
    (ha : site.program.layout.accesses.get? cell.1 = some access) :
    site.Reads cell (Lowering.valueAt frame.level type access) := by
  obtain ⟨found, hfound, hatomic⟩ := cell.2.scalar
  obtain rfl := hfound.unique (h.prepared.typed.sound ht)
  have harray : found.isArray = false := by cases found <;> first | rfl | cases hatomic
  rcases cell.2.access_cases h.prepared h.framed with
    ⟨_, size, label, ha'⟩ | ⟨_, access', offset, ha', _, hs⟩
  · cases ha.symm.trans ha'
    refine ⟨.name label, by simp [Lowering.valueAt, harray], ?_⟩
    intro before word after
    rw [slot_global ha, Ir.computes_name_iff]
  · cases ha.symm.trans ha'
    refine ⟨Lowering.slotAddress frame.level frame.level offset, ?_, ?_⟩
    · rcases hs with rfl | rfl <;> simp [Lowering.valueAt, harray]
    · intro before word after
      rw [slot_frame ha hs, computes_slotAddress_iff]

/-- A plain name is bound to a variable in scope. -/
theorem Fits.inScope (h : site.Fits frame) {word : String} {target : NodeId}
    (hk : site.program.arena.kind? id = some (.expression (.name word)))
    (hb : site.program.bindings.get? id = some target) (hp : Plain site.program site.owner id) :
    site.Scope target := by
  have hright := h.prepared.bound id (Arena.index_lt_size hk)
  simp only [Binding.BoundRight, hk, Option.bind_some, NodeKind.accepted?, hb] at hright
  obtain ⟨found, definition, he, hd, hkind⟩ := hright
  cases he
  obtain ⟨type, htype⟩ := h.wellTyped.total hk rfl
  have htarget := htype.of_name hk hb
  have hdefinition := Arena.kind?_of_definition? hd
  have hwritten : ∃ definition written,
      site.program.arena.kind? target = some (.definition definition) ∧
        definition.written? = some written := by
    refine ⟨definition, ?_⟩
    cases definition <;> simp_all [Definition.kind, Definition.written?]
  refine ⟨hp.place hk hb, ⟨definition, hd, by simpa using hkind⟩, type, htarget, ?_⟩
  rcases htarget.isAtomic_or_isArray h.prepared.tree h.prepared.bound (.inr hwritten) with
    hatomic | harray
  · exact hatomic
  · rw [hp.scalar htype] at harray
    cases harray

/-- The code of a plain name reads the slot of a variable, which the name is bound to. -/
theorem Fits.reads_name (h : site.Fits frame) {word : String} {codes : List Ir.Expr}
    {chunks : List Chunk} {labels rest : LabelSupply}
    (hl : Lowering.Lowers site.program frame.level labels (.expression id) codes chunks rest)
    (hk : site.program.arena.kind? id = some (.expression (.name word)))
    (hp : Plain site.program site.owner id) :
    ∃ (cell : Cell site.Scope) (code : Ir.Expr), codes = [code] ∧
      site.program.bindings.get? id = some cell.1 ∧ site.Reads cell code := by
  obtain ⟨target, type, access, hb, ht, ha, hcodes⟩ := hl.name hk
  let cell : Cell site.Scope := ⟨target, h.inScope hk hb hp⟩
  exact ⟨cell, _, hcodes, hb, h.reads_valueAt cell ht ha⟩

end Site

end Pins
