import Pins.Proofs.Compiled
import Pins.Proofs.Effects

/-!
# Where values are moved to

The code of a compilation moves values into memory: to the slots of counters, to the result and to
saved frame pointers. An assignment moves its value to the code of its target, whatever that is;
this is a value in memory exactly if the target is a name or an element of an array
(`destinations_isMemory_iff`).
-/

namespace Pins

/-- A name, an element of an array, or one of these under definitions of its own. -/
inductive Arena.Addresses (arena : Arena) : NodeId → Prop where
  | name {id : NodeId} {word : String} (hk : arena.kind? id = some (.expression (.name word))) :
      Addresses arena id
  | index {id array position : NodeId}
      (hk : arena.kind? id = some (.expression (.binary .index array position))) :
      Addresses arena id
  | whereClause {id inner body : NodeId}
      (hk : arena.kind? id = some (.expression (.whereClause inner body)))
      (hbody : Addresses arena body) : Addresses arena id

/-- An index is into an array, and gives an element of it. -/
theorem Typing.element?_of_combined? {left right type : Ty}
    (h : combined? .index left right = some type) : left.element? = some type := by
  unfold combined? at h
  split at h <;> simp_all [Ty.element?]

/-- Both sides of an assignment have one atomic type. -/
theorem Typing.isAtomic_of_combined? {left right type : Ty}
    (h : combined? .assign left right = some type) : left.isAtomic = true := by
  unfold combined? at h
  split at h <;> grind

/-- Values of atomic types are no arrays. -/
theorem Ty.isArray_of_isAtomic {type : Ty} (h : type.isAtomic = true) : type.isArray = false := by
  cases type <;> first | rfl | cases h

namespace Lowering

open Ir (Effect Expr Tree)

variable {program : Program} {first last level : Nat} {id : NodeId} {type : Ty}
  {labels rest : LabelSupply} {codes : List Expr} {code : Expr} {chunks : List Chunk}

/-- The code of a name of an atomic type is a value in memory. -/
theorem isMemory_valueAt {access : Access} (h : type.isArray = false) :
    (valueAt level type access).isMemory = true := by
  cases access <;> simp [valueAt, h, Expr.isMemory]

/-- Of the nodes that are no where clauses, exactly names and elements have a value in memory as
their code, if their type is atomic. -/
theorem Combines.isMemory_iff {item : Expression} {own : List Chunk}
    (h : Combines program level id item codes labels code own rest) (hp : Prepared program)
    (hk : program.arena.kind? id = some (.expression item))
    (ht : Typing.HasType program.arena program.bindings id type) (ha : type.isAtomic = true) :
    code.isMemory = true ↔ program.arena.Addresses id := by
  have hnone : (∀ word, item ≠ .name word) → (∀ left right, item ≠ .binary .index left right) →
      (∀ inner body, item ≠ .whereClause inner body) → ¬ program.arena.Addresses id := by
    rintro hname hindex hwhere (hk' | hk' | ⟨hk', _⟩)
    · exact hname _ (by simpa using hk.symm.trans hk')
    · exact hindex _ _ (by simpa using hk.symm.trans hk')
    · exact hwhere _ _ (by simpa using hk.symm.trans hk')
  have harray := Ty.isArray_of_isAtomic ha
  have hd := ht.derives hk
  cases h with
  | @name word definition found access _ hb hfound haccess =>
    obtain ⟨target, hb', htarget⟩ := hd
    cases hb.symm.trans hb'
    rw [(hp.typed.sound hfound).unique htarget]
    simp [isMemory_valueAt harray, Arena.Addresses.name hk]
  | @index left right leftCode rightCode found element size _ hfound hel hsize =>
    obtain ⟨leftType, rightType, hleft, hright, hc⟩ := hd
    have htype : leftType.element? = some type := Typing.element?_of_combined? hc
    rw [← (hp.typed.sound hfound).unique hleft, hel] at htype
    cases htype
    simp [indexed, harray, Expr.isMemory, Arena.Addresses.index hk]
  | @operation operator left right leftCode rightCode computed _ ho =>
    have hoperator : operator ≠ .index := by
      rintro rfl
      cases ho
    simp [Expr.isMemory, hnone (by simp) (by simp [hoperator]) (by simp)]
  | @unary operator operand operandCode _ =>
    cases operator <;> simp [unaryCode, Expr.isMemory, hnone (by simp) (by simp) (by simp)]
  | conditional | whileLoop | forLoop =>
    simp [zeroAfter, Expr.isMemory, hnone (by simp) (by simp) (by simp)]
  | integer | logical | string | routine | call | assign | block =>
    simp [Expr.isMemory, hnone (by simp) (by simp) (by simp)]

/-- The code of an expression of an atomic type is a value in memory if and only if the expression
is a name or an element. -/
theorem Lowers.isMemory_iff (hp : Prepared program) :
    ∀ {task : Task} {codes : List Expr}, Lowers program level labels task codes chunks rest →
      ∀ {id type code}, task = .expression id → codes = [code] →
        Typing.HasType program.arena program.bindings id type → type.isAtomic = true →
          (code.isMemory = true ↔ program.arena.Addresses id) := by
  intro task codes h
  induction h with
  | @node level labels₁ labels₂ labels₃ id item codes code chunks own hk hl hc =>
    rintro id type code ⟨⟩ ⟨⟩ ht ha
    exact hc.isMemory_iff hp hk ht ha
  | @choice level labels₁ labels₂ labels₃ id condition thenBranch elseBranch test thenCode elseCode
      chunks others hk hfront helse =>
    rintro id type code ⟨⟩ ⟨⟩ ht ha
    have hd := ht.derives hk
    obtain ⟨_, rfl⟩ := hd
    cases ha
  | @whereClause level labels₁ labels₂ labels₃ id inner body members code chunks others hk hd hl hb
      ihl ihb =>
    rintro id type code ⟨⟩ ⟨⟩ ht ha
    rw [ihb rfl rfl (ht.derives hk) ha]
    constructor
    · exact .whereClause hk
    · rintro (hk' | hk' | ⟨hk', hbody⟩)
      · cases hk.symm.trans hk'
      · cases hk.symm.trans hk'
      · cases hk.symm.trans hk'
        exact hbody
  | noExpressions | expressions | noDefinitions | definitions | function | storage | type
  | parameter =>
    intro id type code htask
    cases htask

/-- Codes and chunks move values into memory only. -/
def Stores (codes : List Expr) (chunks : List Chunk) : Prop :=
  ∀ destination ∈ codes.flatMap (Expr.collect Tree.destination?) ++
    chunks.flatMap Chunk.destinations, destination.isMemory = true

theorem stores_append_iff {codes' : List Expr} {chunks' : List Chunk} :
    Stores (codes ++ codes') (chunks ++ chunks') ↔ Stores codes chunks ∧ Stores codes' chunks' := by
  simp only [Stores, List.flatMap_append, List.mem_append, or_imp, forall_and]
  exact ⟨fun h => ⟨⟨h.1.1, h.2.1⟩, h.1.2, h.2.2⟩, fun h => ⟨⟨h.1.1, h.2.1⟩, h.1.2, h.2.2⟩⟩

/-- Where codes move values to is found in their effects. -/
theorem stores_iff : Stores codes chunks ↔
    (∀ destination ∈ (codes.flatMap Expr.effects).filterMap Effect.destination?,
      destination.isMemory = true) ∧
    ∀ destination ∈ chunks.flatMap Chunk.destinations, destination.isMemory = true := by
  simp only [Stores, Ir.flatMap_collect_eq Tree.destination?_eq_bind, List.mem_append, or_imp,
    forall_and]

/-- An expression moves into memory only, if its operands do and it does so itself. -/
theorem Combines.stores_iff {item : Expression} {own : List Chunk}
    (h : Combines program level id item codes labels code own rest) :
    Stores [code] (chunks ++ own) ↔ Stores codes chunks ∧
      ∀ destination ∈ (ownEffects program id labels codes item).filterMap Effect.destination?,
        destination.isMemory = true := by
  have hchunks : own.flatMap Chunk.destinations = [] := by
    cases h <;> rfl
  have hrepeated : ∀ effect ∈ (repeated codes item).flatMap Expr.effects,
      effect ∈ codes.flatMap Expr.effects := by
    simp only [List.mem_flatMap]
    rintro effect ⟨code, hcode, heffect⟩
    exact ⟨code, mem_of_mem_repeated hcode, heffect⟩
  rw [Lowering.stores_iff, Lowering.stores_iff, List.flatMap_singleton]
  simp only [(h.filterMap_perm Effect.destination?).mem_iff, List.flatMap_append, hchunks,
    List.append_nil, List.mem_append, List.filterMap_append, List.mem_filterMap]
  grind

/-- Expressions other than assignments move into memory themselves, if the code of a counter is a
value in memory. -/
theorem Combines.own_isMemory {item : Expression} {own : List Chunk}
    (h : Combines program level id item codes labels code own rest)
    (hn : ∀ left right, item ≠ .binary .assign left right)
    (hcounter : ∀ counter low high step body, item = .forLoop counter low high step body →
      ∀ counter ∈ codes.take 1, counter.isMemory = true) :
    ∀ destination ∈ (ownEffects program id labels codes item).filterMap Effect.destination?,
      destination.isMemory = true := by
  cases h with
  | routine hr => simp [ownEffects, callEffects, hr, Effect.destination?]
  | call hr hb hf =>
    simp [ownEffects, callEffects, hr, hb, hf, saveFramePointer, Ir.framePointer, Ir.stackPointer,
      Effect.destination?, Expr.isMemory]
  | assign => exact absurd rfl (hn _ _)
  | @operation operator _ _ _ _ _ _ ho => cases operator <;> cases ho <;> simp [ownEffects]
  | forLoop =>
    have hmemory := hcounter _ _ _ _ _ rfl
    simpa [ownEffects, Effect.destination?] using hmemory
  | integer | logical | string | name | index | unary | block | conditional | whileLoop =>
    simp [ownEffects, Effect.destination?]

/-- The code of a counter is a value in memory. -/
theorem Lowers.isMemory_counter (hp : Prepared program) {counter low high step body : NodeId}
    (hk : program.arena.kind? id = some (.expression (.forLoop counter low high step body)))
    (h : Lowers program level labels (.expressions [counter, low, high, step, body]) codes chunks
      rest) : ∀ code ∈ codes.take 1, code.isMemory = true := by
  obtain ⟨type, htype⟩ := Option.isSome_iff_exists.mp (hp.typed.total hk rfl)
  obtain ⟨hcounter, _⟩ := (hp.typed.sound htype).derives hk
  obtain ⟨word, hkind⟩ := hp.tree.kind?_counter hk
  cases h with
  | expressions hfirst _ =>
    simpa using (hfirst.isMemory_iff hp rfl rfl hcounter rfl).mpr (.name hkind)

/-- The values of a program are moved into memory interval by interval. -/
def storesTally (hp : Prepared program) : Tally program where
  holds first last _ codes chunks _ :=
    Stores codes chunks ↔ program.arena.Targets program.arena.Addresses first last
  silent _ hs := by
    have hnothing : Stores [] [] := by simp [Stores]
    exact ⟨fun _ => hs.targets, fun _ => hnothing⟩
  append hl hr hf hs := by
    rw [stores_append_iff, hf, hs, Arena.targets_append_iff hl hr]
  append_back {first middle last labels₁ labels₂ labels₃ codes chunks chunks'} hl hr hf hs := by
    have hboth : Stores ([] ++ codes) (chunks ++ chunks') ↔ _ := stores_append_iff
    rw [List.nil_append] at hboth
    rw [hboth, hf, hs, Arena.targets_append_iff hl hr, and_comm]
  node {first level labels₁ labels₂ labels₃ id item codes code chunks own} hk hf hl hc hd := by
    rw [hc.stores_iff, Arena.targets_append_iff hf.le (Nat.le_succ _), ← hd]
    refine and_congr_right fun _ => ?_
    by_cases hassign : ∃ left right, item = .binary .assign left right
    · obtain ⟨left, right, rfl⟩ := hassign
      cases hc with
      | operation ho => cases ho
      | @assign _ _ leftCode rightCode _ =>
        obtain ⟨type, htype⟩ := Option.isSome_iff_exists.mp (hp.typed.total hk rfl)
        obtain ⟨leftType, _, hleft, _, hcombined⟩ := (hp.typed.sound htype).derives hk
        have hatomic := Typing.isAtomic_of_combined? hcombined
        cases hl with
        | expressions hfirst _ =>
          rw [Arena.targets_assign_iff hk, ← hfirst.isMemory_iff hp rfl rfl hleft hatomic]
          simp [ownEffects, Effect.destination?]
    · have hn : ∀ left right, item ≠ .binary .assign left right :=
        fun left right he => hassign ⟨left, right, he⟩
      have hcounter : ∀ counter low high step body, item = .forLoop counter low high step body →
          ∀ counter ∈ codes.take 1, counter.isMemory = true := by
        rintro counter low high step body rfl
        exact hl.isMemory_counter hp hk
      have htargets : program.arena.Targets program.arena.Addresses id.index (id.index + 1) :=
        Arena.targets_of_kind hk (by simpa using hn)
      exact ⟨fun _ => htargets, fun _ => hc.own_isMemory hn hcounter⟩
  choice {first middle labels₁ labels₂ labels₃ id condition thenBranch elseBranch test thenCode
      elseCode chunks chunks'} hk hl hr hf he := by
    have hboth : Stores ([test, thenCode] ++ [elseCode]) (chunks ++ chunks') ↔ _ :=
      stores_append_iff
    have hcode : Stores [choiceCode labels₂ labels₃ test thenCode elseCode] (chunks ++ chunks') ↔
        Stores ([test, thenCode] ++ [elseCode]) (chunks ++ chunks') := by
      rw [stores_iff, stores_iff, List.flatMap_singleton]
      simp [(choiceCode_filterMap_perm labels₂ labels₃ test thenCode elseCode
        Effect.destination?).mem_iff, choiceEffects, Effect.destination?]
    rw [hcode, hboth, hf, he, Arena.targets_append_iff (Nat.le_trans hl hr) (Nat.le_succ _),
      Arena.targets_append_iff hl hr]
    exact ⟨fun h => ⟨h, Arena.targets_of_kind hk (by simp)⟩, fun h => h.1⟩
  function {first labels₁ labels₂ id name parameters result body frame value chunks} hk _ hle _
      hd := by
    have hcode : Stores [] (chunks ++ [.code frame (.move (.memory Ir.framePointer) value)]) ↔
        Stores [value] chunks := by
      simp only [Stores, Chunk.destinations, Expr.collect, Ir.Stmt.collect, Tree.destination?,
        Ir.framePointer, List.flatMap_append, List.flatMap_cons, List.flatMap_nil, List.append_nil,
        Option.toList_none, Option.toList_some, List.nil_append, List.mem_append,
        List.mem_singleton, or_imp, forall_and, forall_eq, Expr.isMemory, true_and]
      exact and_comm
    rw [hcode, hd, Arena.targets_append_iff hle (Nat.le_succ _)]
    exact ⟨fun h => ⟨h, Arena.targets_of_kind hk (by simp)⟩, fun h => h.1⟩
  storage {labels id name written access} hk _ := by
    have hnothing : Stores [] (storageChunks access) := by
      cases access <;> simp [Stores, storageChunks, Chunk.destinations]
    exact ⟨fun _ => Arena.targets_of_kind hk (by simp), fun _ => hnothing⟩

end Lowering

namespace Compilation

variable {compilation : Compilation} {file source : String}

/-- All code of a compilation moves values into memory only if and only if names and elements alone
are assigned to. -/
theorem destinations_isMemory_iff (h : ofSource file source = .ok compilation) :
    (∀ chunk ∈ compilation.chunks.toList, ∀ destination ∈ chunk.destinations,
      destination.isMemory = true) ↔
    ∀ id target, compilation.program.arena.Assigns id target →
      compilation.program.arena.Addresses target := by
  obtain ⟨root, members, labels, rest, hc⟩ := ofSource_compiled h
  have hstores : Lowering.Stores [] compilation.chunks.toList ↔
      compilation.program.arena.Targets compilation.program.arena.Addresses 0 root.index :=
    (Lowering.storesTally hc.prepared).holds_of_lowers hc.lowers hc.stands
  rw [← hc.targets_iff, ← hstores]
  simp only [Lowering.Stores, List.flatMap_nil, List.nil_append, List.mem_flatMap,
    forall_exists_index, and_imp]
  exact ⟨fun h destination chunk hm => h chunk hm destination,
    fun h chunk hm destination => h destination chunk hm⟩

/-- In a program that counts in an element of an array. -/
theorem destinations_isMemory_iff_of_element :
    ∃ compilation, ofSource "test"
        "fun f(a: arr[2] integer, n: integer): integer = \x7ba[n] = a[n] + 1\x7d" =
          .ok compilation ∧
      ∀ id target, compilation.program.arena.Assigns id target →
        compilation.program.arena.Addresses target := by
  obtain ⟨compilation, h, hm⟩ : ∃ compilation, ofSource "test"
        "fun f(a: arr[2] integer, n: integer): integer = \x7ba[n] = a[n] + 1\x7d" =
          .ok compilation ∧
      ∀ chunk ∈ compilation.chunks.toList, ∀ destination ∈ chunk.destinations,
        destination.isMemory = true := exists_of_any (by decide +kernel)
  exact ⟨compilation, h, (destinations_isMemory_iff h).mp hm⟩

/-- A number may be assigned to, and then a value is moved to it. -/
theorem destination_constant :
    ∃ compilation, ofSource "test" "fun f(): integer = \x7b1 = 2\x7d" = .ok compilation ∧
      ∃ chunk ∈ compilation.chunks.toList, ∃ destination ∈ chunk.destinations,
        destination.isMemory = false :=
  exists_of_any (by decide +kernel)

end Compilation

end Pins
