import Pins.Proofs.ExactLayout
import Pins.Proofs.Kept
import Pins.Proofs.Parts

/-!
# Labels of built-in routines

A call of a built-in routine is lowered to a call of a label, which is the name of the routine. This
label means the routine of the runtime only as long as no chunk of the compilation has it. A chunk
has the name of a routine for its label if and only if the program defines, outside all functions, a
function or a variable of that name (`Compilation.routine_unshadowed_iff`); what is defined inside a
function never gets a name for a label.

Which chunks there are for functions is told by `Compiled.codesOf`. `StoragesOf` tells it for the
variables, and that the characters of string literals have generated labels.
-/

namespace Pins

/-- The label under which a value is kept. -/
def Access.label? : Access → Option Label
  | global _ label => some label
  | inFrame .. | parameter .. => none

/-- The label of a chunk. -/
def Chunk.label? : Chunk → Option Label
  | code frame _ => some frame.label
  | data access _ | global access => access.label?

namespace Lowering

variable {program : Program} {first middle last level : Nat} {id : NodeId}
  {chunks chunks' : List Chunk} {callee : String} {arguments : List NodeId}

/-- A variable is kept at an access. -/
def StoredAt (program : Program) (id : NodeId) (access : Access) : Prop :=
  (∃ name written, program.arena.kind? id = some (.definition (.var name written))) ∧
    program.layout.accesses.get? id = some access

/-- The variables with a label of an interval are those that have storage there. -/
structure StoragesOf (program : Program) (first last : Nat) (chunks : List Chunk) : Prop where
  /-- Every variable with a label has storage. -/
  total : ∀ id size label, first ≤ id.index → id.index < last →
    StoredAt program id (.global size label) → Chunk.global (.global size label) ∈ chunks
  /-- All storage is that of a variable. -/
  sound : ∀ access, Chunk.global access ∈ chunks → ∃ id, StoredAt program id access
  /-- Characters have a generated label. -/
  data : ∀ access value, Chunk.data access value ∈ chunks →
    ∃ number, access.label? = some (.generated number)

namespace StoragesOf

/-- Chunks of two intervals are those of both. -/
theorem append (hf : StoragesOf program first middle chunks)
    (hs : StoragesOf program middle last chunks') :
    StoragesOf program first last (chunks ++ chunks') := by
  constructor
  · intro id size label hfirst hlast hk
    rcases Nat.lt_or_ge id.index middle with hlt | hge
    · exact List.mem_append_left _ (hf.total id size label hfirst hlt hk)
    · exact List.mem_append_right _ (hs.total id size label hge hlast hk)
  · intro access hm
    exact (List.mem_append.mp hm).elim (hf.sound access) (hs.sound access)
  · intro access value hm
    exact (List.mem_append.mp hm).elim (hf.data access value) (hs.data access value)

theorem perm (h : StoragesOf program first last chunks) (hp : chunks.Perm chunks') :
    StoragesOf program first last chunks' :=
  ⟨fun id size label hf hl hk => hp.mem_iff.mp (h.total id size label hf hl hk),
    fun access hm => h.sound access (hp.mem_iff.mpr hm),
    fun access value hm => h.data access value (hp.mem_iff.mpr hm)⟩

/-- Where there is no variable, there is no storage. -/
theorem of_plain
    (hn : ∀ id kind, first ≤ id.index → id.index < last → program.arena.kind? id = some kind →
      ∀ name written, kind ≠ .definition (.var name written))
    (ho : ∀ access, Chunk.global access ∉ chunks)
    (hd : ∀ access value, Chunk.data access value ∈ chunks →
      ∃ number, access.label? = some (.generated number)) :
    StoragesOf program first last chunks := by
  refine ⟨fun id size label hf hl hk => ?_, fun access hm => absurd hm (ho access), hd⟩
  obtain ⟨⟨name, written, hk⟩, _⟩ := hk
  exact absurd rfl (hn id _ hf hl hk name written)

/-- A node that is no variable has no storage. -/
theorem of_kind {kind : NodeKind} (hk : program.arena.kind? id = some kind)
    (hn : ∀ name written, kind ≠ .definition (.var name written))
    (ho : ∀ access, Chunk.global access ∉ chunks)
    (hd : ∀ access value, Chunk.data access value ∈ chunks →
      ∃ number, access.label? = some (.generated number)) :
    StoragesOf program id.index (id.index + 1) chunks := by
  refine of_plain (fun other found hf hl hfound => ?_) ho hd
  obtain rfl : other = id := NodeId.eq_of_index (by omega)
  cases hk.symm.trans hfound
  exact hn

end StoragesOf

/-- Every variable with a label has storage, and all storage is that of a variable. -/
def storagesTally (program : Program) : Tally program where
  holds first last _ _ chunks _ := StoragesOf program first last chunks
  silent {first last _} _ hs := by
    refine .of_plain (fun id kind hf hl hk name written he => ?_) (by simp) (by simp)
    subst he
    cases hs id _ hf hl hk
  append _ _ hf hs := hf.append hs
  append_back _ _ hf hs := (hs.append hf).perm List.perm_append_comm
  node {first level labels₁ labels₂ labels₃ id item codes code chunks own} hk hf hl hc hd := by
    refine hd.append (.of_kind hk (by simp) (fun access hm => ?_) fun access value hm => ?_)
    · cases hc <;> simp at hm
    · cases hc with
      | string =>
        cases List.mem_singleton.mp hm
        exact ⟨_, rfl⟩
      | _ => simp at hm
  choice hk _ _ hf he := by
    have hown := StoragesOf.of_kind hk (by simp) (by simp : ∀ access, Chunk.global access ∉ [])
      (by simp)
    simpa using (hf.append he).append hown
  function hk _ _ _ hd := hd.append (.of_kind hk (by simp) (by simp) (by simp))
  storage {labels id name written access} hk ha := by
    have hstored : StoredAt program id access := ⟨⟨name, written, hk⟩, ha⟩
    refine ⟨fun other size label hf hl hother => ?_, fun found hm => ?_, fun found value hm => ?_⟩
    · obtain rfl : other = id := NodeId.eq_of_index (by omega)
      cases ha.symm.trans hother.2
      exact List.mem_singleton_self _
    · refine ⟨id, ?_⟩
      cases access with
      | global size label =>
        cases List.mem_singleton.mp hm
        exact hstored
      | inFrame | parameter => cases hm
    · cases access <;> simp [storageChunks] at hm

/-- A call of a built-in routine is a call of its name, with nothing for a static link. -/
theorem Lowers.routineCall {codes : List Ir.Expr} {labels rest : LabelSupply}
    (h : Lowers program level labels (.expression id) codes chunks rest)
    (hk : program.arena.kind? id = some (.expression (.call callee arguments)))
    (hr : Builtin.isRoutine callee = true) :
    ∃ argumentCodes, codes = [.call (.named callee) (.constant 0 :: argumentCodes)] := by
  cases h with
  | node hk' hchildren hcombines =>
    cases hk.symm.trans hk'
    cases hcombines with
    | routine => exact ⟨_, rfl⟩
    | call hr' => cases hr.symm.trans hr'
  | choice hk' => cases hk.symm.trans hk'
  | whereClause hk' => cases hk.symm.trans hk'

end Lowering

namespace Compiled

variable {compilation : Compilation} {root id : NodeId} {members : List NodeId}
  {labels rest : LabelSupply} {name : String} {definition : Definition}

/-- Storage under labels belongs to the variables that have labels. -/
theorem storagesOf (h : Compiled compilation root members labels rest) :
    Lowering.StoragesOf compilation.program 0 root.index compilation.chunks.toList :=
  (Lowering.storagesTally compilation.program).holds_of_lowers h.lowers h.stands

/-- The top-level definitions stand outside all functions. -/
theorem encloses_of_mem (h : Compiled compilation root members labels rest) (hm : id ∈ members) :
    compilation.program.arena.Encloses none id := by
  obtain ⟨found, hroot, hsize, _⟩ := h.prepared.tree
  obtain rfl : found = root := NodeId.eq_of_index (by have hends := h.ends; omega)
  exact (Arena.Encloses.root hroot).ofOther h.kind rfl hm

/-- A chunk that has a name for its label is that of a function or variable of this name, outside
all functions. -/
theorem exists_of_label (h : Compiled compilation root members labels rest) {chunk : Chunk}
    (hc : chunk ∈ compilation.chunks.toList) (hl : chunk.label? = some (.named name)) :
    ∃ id definition, compilation.program.arena.Encloses none id ∧
      compilation.program.arena.definition? id = some definition ∧ definition.name = name ∧
      (definition.kind = .function ∨ definition.kind = .var) := by
  cases chunk with
  | code frame body =>
    obtain ⟨id, hf, fname, parameters, result, found, value, hk, _⟩ := h.codesOf.sound frame body hc
    have hlabel : frame.label = .named name := Option.some.inj hl
    rcases h.labelled.frame hf with ⟨hm, definition, hd, hn⟩ | ⟨number, _, hg⟩
    · cases hlabel.symm.trans hn
      rw [Arena.definition?, hk] at hd
      cases hd
      exact ⟨id, _, h.encloses_of_mem hm, by rw [Arena.definition?, hk], rfl, .inl rfl⟩
    · cases hlabel.symm.trans hg
  | data access value =>
    obtain ⟨number, hg⟩ := h.storagesOf.data access value hc
    cases hl.symm.trans hg
  | global access =>
    obtain ⟨id, ⟨vname, written, hk⟩, ha⟩ := h.storagesOf.sound access hc
    cases access with
    | inFrame | parameter => cases hl
    | global size label =>
      obtain rfl : label = .named name := Option.some.inj hl
      obtain ⟨hm, definition, hd, hn⟩ := h.labelled.access ha
      cases hn
      rw [Arena.definition?, hk] at hd
      cases hd
      exact ⟨id, _, h.encloses_of_mem hm, by rw [Arena.definition?, hk], rfl, .inr rfl⟩

/-- A function or variable outside all functions has a chunk with its name for a label. -/
theorem exists_chunk (h : Compiled compilation root members labels rest)
    (htiled : ∀ {id frame}, compilation.program.layout.frames.get? id = some frame →
      Layout.Tiled compilation.program.arena compilation.program.types
        compilation.program.layout.accesses id frame)
    (he : compilation.program.arena.Encloses none id)
    (hd : compilation.program.arena.definition? id = some definition)
    (hk : definition.kind = .function ∨ definition.kind = .var) :
    ∃ chunk ∈ compilation.chunks.toList, chunk.label? = some (.named definition.name) := by
  have hkind := Arena.kind?_of_definition? hd
  have hlt := h.index_lt hkind (by simp)
  cases definition with
  | type | parameter => rcases hk with hk | hk <;> cases hk
  | function name parameters result body =>
    obtain ⟨frame, code, hm, hf, _⟩ := h.codesOf.total id _ (Nat.zero_le _) hlt hkind rfl
    have hlevel : frame.level = 0 + 1 :=
      (h.prepared.laidOut.framed hf).level.unique h.prepared.tree (.inside he .outside)
    obtain ⟨found, hfound, hlabel⟩ := (htiled hf).label hlevel
    cases hd.symm.trans hfound
    exact ⟨_, hm, congrArg some hlabel⟩
  | var name written =>
    obtain ⟨type, size, _, _, ha⟩ := h.prepared.laidOut.access_outside h.labelled he hd (by
      rw [hkind]
      rfl)
    exact ⟨_, h.storagesOf.total id size _ (Nat.zero_le _) hlt ⟨⟨name, written, hkind⟩, ha⟩, rfl⟩

end Compiled

namespace Compilation

variable {compilation : Compilation} {file source : String}

/-- The frames of a compiled source are tiled. -/
theorem ofSource_tiled (h : ofSource file source = .ok compilation) {id : NodeId} {frame : Frame}
    (hf : compilation.program.layout.frames.get? id = some frame) :
    Layout.Tiled compilation.program.arena compilation.program.types
      compilation.program.layout.accesses id frame := by
  obtain ⟨tokens, arena, _, hparse, ha⟩ := ofSource_eq_ok h
  obtain ⟨bindings, types, layout, labels, _, _, hl, _, he⟩ := ofArena_eq_ok ha
  rw [he] at hf ⊢
  exact Layout.ofArena_tiled (parse_isTree hparse) hl hf

/-- A call of a built-in routine is lowered to a call of the name of the routine. No chunk has this
name for its label if and only if the program defines no function and no variable of the name
outside all functions. -/
theorem routine_unshadowed_iff (h : ofSource file source = .ok compilation) {id : NodeId}
    {callee : String} {arguments : List NodeId}
    (hk : compilation.program.arena.kind? id = some (.expression (.call callee arguments)))
    (hr : Builtin.isRoutine callee = true) :
    (∃ codes, compilation.trees.get? id =
        some (.expr (.call (.named callee) (.constant 0 :: codes)))) ∧
      ((∀ chunk ∈ compilation.chunks.toList, chunk.label? ≠ some (.named callee)) ↔
        ∀ node definition, compilation.program.arena.Encloses none node →
          compilation.program.arena.definition? node = some definition →
          definition.kind = .function ∨ definition.kind = .var → definition.name ≠ callee) := by
  obtain ⟨root, members, labels, rest, hc⟩ := ofSource_compiled h
  obtain ⟨code, outer, level, before, chunks, behind, hcode, _, _, hlowers⟩ := exists_kept h hk
  obtain ⟨codes, hcall⟩ := hlowers.routineCall hk hr
  cases hcall
  refine ⟨⟨codes, hcode⟩, fun hnone node definition he hd hkind hname => ?_,
    fun hnone chunk hm hl => ?_⟩
  · obtain ⟨chunk, hm, hl⟩ := hc.exists_chunk (ofSource_tiled h) he hd hkind
    exact hnone chunk hm (hname ▸ hl)
  · obtain ⟨node, definition, he, hd, hname, hkind⟩ := hc.exists_of_label hm hl
    exact hnone node definition he hd hkind hname

/-- A nested function and a type may have the name of a routine: the routine is called. -/
theorem routine_unshadowed_of_nested :
    ∃ compilation, ofSource "test" ("fun f(): integer = print_int(1) \x7bwhere " ++
        "fun print_int(x: integer): integer = x\x7d; typ print_int: integer") = .ok compilation ∧
      compilation.program.arena.kind? ⟨2⟩ = some (.expression (.call "print_int" [⟨1⟩])) ∧
      ∀ node definition, compilation.program.arena.Encloses none node →
        compilation.program.arena.definition? node = some definition →
        definition.kind = .function ∨ definition.kind = .var → definition.name ≠ "print_int" := by
  obtain ⟨compilation, h, hk, hn⟩ : ∃ compilation, ofSource "test"
      ("fun f(): integer = print_int(1) \x7bwhere " ++
        "fun print_int(x: integer): integer = x\x7d; typ print_int: integer") = .ok compilation ∧
      compilation.program.arena.kind? ⟨2⟩ = some (.expression (.call "print_int" [⟨1⟩])) ∧
      ∀ chunk ∈ compilation.chunks.toList, chunk.label? ≠ some (.named "print_int") :=
    exists_of_any (by decide +kernel)
  exact ⟨compilation, h, hk, (routine_unshadowed_iff h hk (by decide)).2.mp hn⟩

/-- The code of a top-level function has the label that a call of the routine of its name goes
to. -/
theorem routine_shadowed_by_function :
    ∃ compilation, ofSource "test"
        "fun print_int(x: integer): integer = x; fun f(): integer = print_int(1)" =
          .ok compilation ∧
      compilation.program.arena.kind? ⟨7⟩ = some (.expression (.call "print_int" [⟨6⟩])) ∧
      Builtin.isRoutine "print_int" = true ∧
      (compilation.trees.get? ⟨7⟩).bind Ir.Tree.callee? = some (.named "print_int") ∧
      ∃ chunk ∈ compilation.chunks.toList, chunk.label? = some (.named "print_int") :=
  exists_of_any (by decide +kernel)

end Compilation

end Pins
