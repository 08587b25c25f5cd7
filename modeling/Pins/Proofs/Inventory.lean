import Mathlib.Data.List.Forall2
import Pins.Proofs.RoutineLabels
import Pins.Proofs.Traversal

/-!
# What a compilation holds

Every table of a compilation has an entry for each node that it is about and for no other number,
and the chunks come from one traversal of the program: in the order in which it meets them, string
literals have their characters, variables outside all functions their storage and functions their
code, nested functions before the functions around them (`Compilation.inventory`).

Lowering meets the nodes in the order of `Arena.traversal`, so the chunks of a task are those of its
nodes (`Lowers.emitted`).
-/

namespace Pins

namespace Arena

/-- The definitions outside all functions. -/
def outermost (arena : Arena) : List NodeId :=
  match arena.root.bind arena.kind? with
  | some (.definitions members) => members
  | _ => []

/-- A node has a chunk: it is a string literal, a function, or a variable outside all functions. -/
def emits (arena : Arena) (id : NodeId) : Bool :=
  match arena.kind? id with
  | some (.expression (.literal _ .string)) => true
  | some (.definition (.function ..)) => true
  | some (.definition (.var ..)) => arena.outermost.contains id
  | _ => false

variable {arena : Arena} {first last : Nat} {places : List (Place × NodeId)} {id : NodeId}
  {kind : NodeKind}

/-- Parameters and written types have no chunk. -/
theorem emits_signature (hk : arena.kind? id = some kind) (hs : kind.isSignature = true) :
    arena.emits id = false := by
  rw [emits, hk]
  cases kind with
  | definition item => cases item <;> first | rfl | cases hs
  | definitions | expression => cases hs
  | type => rfl

/-- Nothing in a forest of parameters and written types has a chunk. -/
theorem Forest.filter_emits (ht : arena.IsTree) (h : arena.Forest first places last)
    (hp : ∀ member ∈ places, member.1 = Place.type ∨ member.1 = Place.parameter) :
    ((places.map Prod.snd).flatMap arena.traversal).filter arena.emits = [] := by
  refine List.filter_eq_nil_iff.mpr fun id hid => ?_
  have hin := mem_interval_iff.mp ((h.traversal_perm ht).mem_iff.mp hid)
  obtain ⟨kind, hk, hs⟩ := h.signature hp hin.1 hin.2
  rw [emits_signature hk hs]
  decide

/-- A node without a chunk has the chunks of the nodes directly below it. -/
theorem IsTree.filter_traversal (ht : arena.IsTree) (hk : arena.kind? id = some kind)
    (hn : arena.emits id = false) : (arena.traversal id).filter arena.emits =
      (kind.children.flatMap arena.traversal).filter arena.emits := by
  rw [ht.traversal_eq hk, List.filter_append]
  simp [hn]

/-- Below a definition that is no function there is no chunk. -/
theorem IsTree.filter_definition (ht : arena.IsTree) {definition : Definition}
    (hk : arena.kind? id = some (.definition definition))
    (hn : (NodeKind.definition definition).isFunction = false) :
    (arena.traversal id).filter arena.emits = [id].filter arena.emits := by
  obtain ⟨_, first, hs⟩ := ht.exists_subtree hk
  obtain ⟨kind, hfound, _, _, hf⟩ := subtree_iff.mp hs
  cases hk.symm.trans hfound
  have hwritten : ∃ written, (NodeKind.definition definition).places = [(.type, written)] ∧
      definition.children = [written] := by
    cases definition with
    | function => cases hn
    | var name written | type name written | parameter name written => exact ⟨written, rfl, rfl⟩
  obtain ⟨written, hplaces, hchildren⟩ := hwritten
  have hnone := hf.filter_emits ht (by simp [hplaces])
  rw [hplaces] at hnone
  have hbelow : (NodeKind.definition definition).children = [written] := hchildren
  rw [ht.traversal_eq hk, List.filter_append, hbelow]
  simpa using hnone

/-- A function has its chunk behind those of its body. -/
theorem IsTree.filter_function (ht : arena.IsTree) {name : String} {parameters : List NodeId}
    {result body : NodeId}
    (hk : arena.kind? id = some (.definition (.function name parameters result body))) :
    (arena.traversal id).filter arena.emits =
      (arena.traversal body).filter arena.emits ++ [id] := by
  obtain ⟨_, first, hs⟩ := ht.exists_subtree hk
  obtain ⟨kind, hfound, _, _, hf⟩ := subtree_iff.mp hs
  cases hk.symm.trans hfound
  obtain ⟨middle, hsignature, _, _⟩ := hf.function
  have hnone := hsignature.filter_emits ht signaturePlaces_types
  have hplaces : (signaturePlaces parameters result).map Prod.snd = parameters ++ [result] := by
    simp [signaturePlaces, Function.comp_def]
  rw [hplaces] at hnone
  have hchildren : (NodeKind.definition (.function name parameters result body)).children =
      (parameters ++ [result]) ++ [body] := by
    simp [NodeKind.children, Definition.children]
  have hemits : arena.emits id = true := by simp [emits, hk]
  rw [ht.traversal_eq hk, hchildren, List.flatMap_append, List.filter_append, List.filter_append,
    hnone, List.filter_cons_of_pos hemits]
  simp

end Arena

/-- Exactly the references are bound. -/
theorem Binding.BoundRight.isSome_eq {arena : Arena} {id : NodeId} {bound : Option NodeId}
    (h : BoundRight arena id bound) :
    bound.isSome = (arena.kind? id).any fun kind => kind.accepted?.isSome := by
  unfold BoundRight at h
  cases hk : arena.kind? id with
  | none =>
    rw [hk] at h
    rw [h]
    rfl
  | some kind =>
    rw [hk, Option.bind_some] at h
    cases ha : kind.accepted? with
    | none =>
      rw [ha] at h
      simp [h, ha]
    | some kinds =>
      rw [ha] at h
      obtain ⟨target, _, hb, _⟩ := h
      simp [hb, ha]

/-- Exactly the nodes other than definition lists have types. -/
theorem Typing.Typed.isSome_eq {arena : Arena} {bindings : NodeTable NodeId} {types : NodeTable Ty}
    (h : Typed arena bindings types) (id : NodeId) :
    (types.get? id).isSome = (arena.kind? id).any NodeKind.isTyped := by
  cases hf : types.get? id with
  | some type =>
    obtain ⟨kind, hk, htyped⟩ := (h.sound hf).exists_kind
    simp [hk, htyped]
  | none =>
    cases hk : arena.kind? id with
    | none => rfl
    | some kind =>
      cases htyped : kind.isTyped with
      | false => simp [htyped]
      | true =>
        have hsome := h.total hk htyped
        rw [hf] at hsome
        cases hsome

namespace Lowering

open List (Forall₂)

variable {program : Program} {level : Nat} {id : NodeId} {labels rest : LabelSupply} {task : Task}
  {item : Expression} {codes : List Ir.Expr} {code : Ir.Expr} {chunks own : List Chunk}

/-- The chunk of a node. -/
inductive Emitted (program : Program) : NodeId → Chunk → Prop where
  /-- The characters of a literal have a generated label. -/
  | literal {id : NodeId} {value : String} {number : Nat}
      (hk : program.arena.kind? id = some (.expression (.literal value .string))) :
      Emitted program id (.data (.global wordSize (.generated number)) value)
  /-- A variable has storage at its access. -/
  | storage {id written : NodeId} {name : String} {access : Access}
      (hk : program.arena.kind? id = some (.definition (.var name written)))
      (ha : program.layout.accesses.get? id = some access) :
      Emitted program id (.global access)
  /-- A function has code with its frame. -/
  | code {id : NodeId} {frame : Frame} {body : Ir.Stmt} (hc : Codes program id frame body) :
      Emitted program id (.code frame body)

/-- Variables have labels outside all functions, and nowhere else. -/
def Outermost (program : Program) : Prop :=
  ∀ id name written access, program.arena.kind? id = some (.definition (.var name written)) →
    program.layout.accesses.get? id = some access →
      (id ∈ program.arena.outermost ↔ ∃ size label, access = .global size label)

/-- The chunk of an expression itself is that of a string literal. -/
theorem Combines.emitted (h : Combines program level id item codes labels code own rest)
    (hk : program.arena.kind? id = some (.expression item)) :
    Forall₂ (Emitted program) ([id].filter program.arena.emits) own := by
  cases h with
  | string =>
    have hemits : program.arena.emits id = true := by simp [Arena.emits, hk]
    rw [List.filter_cons_of_pos hemits]
    exact .cons (.literal hk) .nil
  | integer | logical | name | routine | call | operation | index | assign | unary | block
  | conditional | whileLoop | forLoop =>
    have hemits : program.arena.emits id = false := by simp [Arena.emits, hk]
    rw [List.filter_cons_of_neg (by rw [hemits]; decide)]
    exact .nil

/-- The chunks of a task are those of its nodes, in the order of a traversal. -/
theorem Lowers.emitted (ht : program.arena.IsTree) (ho : Outermost program)
    (h : Lowers program level labels task codes chunks rest) :
    Forall₂ (Emitted program)
      ((task.ids.flatMap program.arena.traversal).filter program.arena.emits) chunks := by
  induction h with
  | @node level labels₁ labels₂ labels₃ id item codes code chunks own hk hl hc ih =>
    simp only [Task.ids, List.flatMap_cons, List.flatMap_nil, List.append_nil] at ih ⊢
    rw [ht.traversal_eq hk, List.filter_append]
    exact List.rel_append ih (hc.emitted hk)
  | @choice level labels₁ labels₂ labels₃ id condition thenBranch elseBranch test thenCode elseCode
      chunks others hk hfront helse ihf ihe =>
    simp only [Task.ids, List.flatMap_cons, List.flatMap_nil, List.append_nil] at ihf ihe ⊢
    rw [ht.filter_traversal hk (by simp [Arena.emits, hk])]
    simpa [NodeKind.children, Expression.children] using List.rel_append ihf ihe
  | @whereClause level labels₁ labels₂ labels₃ id inner body members code chunks others hk hd hm hb
      ihm ihb =>
    have hinner := ht.filter_traversal hd (by simp [Arena.emits, hd])
    simp only [Task.ids, List.flatMap_cons, List.flatMap_nil, List.append_nil] at ihm ihb ⊢
    rw [ht.filter_traversal hk (by simp [Arena.emits, hk])]
    simp only [NodeKind.children, Expression.children, List.flatMap_cons, List.flatMap_nil,
      List.append_nil, List.filter_append, hinner]
    exact List.rel_append ihm ihb
  | noExpressions | noDefinitions => exact .nil
  | @expressions level labels₁ labels₂ labels₃ id ids code codes chunks others hf hr ihf ihr =>
    simpa [Task.ids] using List.rel_append ihf ihr
  | @definitions level labels₁ labels₂ labels₃ id ids chunks others hf hr ihf ihr =>
    simpa [Task.ids] using List.rel_append ihf ihr
  | @function level labels₁ labels₂ id result body name parameters frame value chunks hk hframe hb
      ih =>
    simp only [Task.ids, List.flatMap_cons, List.flatMap_nil, List.append_nil] at ih ⊢
    rw [ht.filter_function hk]
    have hcodes : Codes program id frame (.move (.memory Ir.framePointer) value) :=
      ⟨hframe, _, _, _, _, value, hk, rfl, _, _, _, hb⟩
    exact List.rel_append ih (.cons (.code hcodes) .nil)
  | @storage level labels id written name access hk ha =>
    simp only [Task.ids, List.flatMap_cons, List.flatMap_nil, List.append_nil]
    rw [ht.filter_definition hk rfl]
    have hiff := ho id name written access hk ha
    by_cases hm : id ∈ program.arena.outermost
    · obtain ⟨size, label, rfl⟩ := hiff.mp hm
      have hemits : program.arena.emits id = true := by simp [Arena.emits, hk, hm]
      rw [List.filter_cons_of_pos hemits]
      exact .cons (.storage hk ha) .nil
    · have hemits : program.arena.emits id = false := by simp [Arena.emits, hk, hm]
      have hnone : storageChunks access = [] := by
        cases access with
        | global size label => exact absurd (hiff.mpr ⟨size, label, rfl⟩) hm
        | inFrame | parameter => rfl
      rw [hnone, List.filter_cons_of_neg (by simp [hemits])]
      exact .nil
  | @type level labels id written name hk | @parameter level labels id written name hk =>
    simp only [Task.ids, List.flatMap_cons, List.flatMap_nil, List.append_nil]
    have hemits : program.arena.emits id = false := by simp [Arena.emits, hk]
    rw [ht.filter_definition hk rfl, List.filter_cons_of_neg (by simp [hemits])]
    exact .nil

end Lowering

namespace Compiled

variable {compilation : Compilation} {root : NodeId} {members : List NodeId}
  {labels rest : LabelSupply}

/-- The root of the program lists its outermost definitions. -/
theorem outermost_eq (h : Compiled compilation root members labels rest) :
    compilation.program.arena.root = some root ∧
      compilation.program.arena.outermost = members := by
  obtain ⟨found, hroot, hsize, _⟩ := h.prepared.tree
  obtain rfl : found = root := NodeId.eq_of_index (by have hends := h.ends; omega)
  exact ⟨hroot, by simp [Arena.outermost, hroot, h.kind]⟩

/-- The variables outside all functions are those that have a label. -/
theorem outermost (h : Compiled compilation root members labels rest) :
    Lowering.Outermost compilation.program := by
  intro id name written access hk ha
  rw [h.outermost_eq.2]
  constructor
  · intro hm
    exact h.prepared.laidOut.outside (h.encloses_of_mem hm) ha
  · rintro ⟨size, label, rfl⟩
    exact (h.labelled.access ha).1

/-- The chunks are those of the nodes of the program, in the order of a traversal. -/
theorem emitted (h : Compiled compilation root members labels rest) :
    List.Forall₂ (Lowering.Emitted compilation.program)
      ((compilation.program.arena.traversal root).filter compilation.program.arena.emits)
      compilation.chunks.toList := by
  have htree := h.prepared.tree
  rw [htree.filter_traversal h.kind (by simp [Arena.emits, h.kind])]
  exact h.lowers.emitted htree h.outermost

end Compiled

namespace Compilation

variable {compilation : Compilation} {file source : String}

/-- Exactly the names of variables and parameters, the names of types and the calls of what is no
built-in routine are bound, all nodes but definition lists have types, functions have frames,
variables, type definitions and parameters have accesses, and expressions and functions have code.
The chunks are those of one traversal that meets every node once, behind what is below it. -/
theorem inventory (h : ofSource file source = .ok compilation) :
    (∀ id, (compilation.program.bindings.get? id).isSome =
        (compilation.program.arena.kind? id).any fun kind => kind.accepted?.isSome) ∧
      (∀ id, (compilation.program.types.get? id).isSome =
        (compilation.program.arena.kind? id).any NodeKind.isTyped) ∧
      (∀ id, (compilation.program.layout.frames.get? id).isSome =
        (compilation.program.arena.kind? id).any NodeKind.isFunction) ∧
      (∀ id, (compilation.program.layout.accesses.get? id).isSome =
        (compilation.program.arena.kind? id).any NodeKind.keepsValue) ∧
      (∀ id, Lowering.TreeRight compilation.program.arena id (compilation.trees.get? id)) ∧
      ∃ root, compilation.program.arena.root = some root ∧
        (compilation.program.arena.traversal root).Perm compilation.program.arena.ids ∧
        (∀ id kind, compilation.program.arena.kind? id = some kind →
          compilation.program.arena.traversal id =
            kind.children.flatMap compilation.program.arena.traversal ++ [id]) ∧
        List.Forall₂ (Lowering.Emitted compilation.program)
          ((compilation.program.arena.traversal root).filter compilation.program.arena.emits)
          compilation.chunks.toList := by
  obtain ⟨root, members, before, behind, hcompiled⟩ := ofSource_compiled h
  obtain ⟨tokens, arena, _, hparse, ha⟩ := ofSource_eq_ok h
  obtain ⟨bindings, types, layout, labels, hb, ht, hl, hp, he⟩ := ofArena_eq_ok ha
  have htree := parse_isTree hparse
  have hprepared := prepared htree hb ht hl
  have htables := Layout.ofArena_tables htree (hprepared.typed.sized htree) hl
  obtain ⟨_, _, hok, htrees⟩ := Lowering.ofProgram_lowered labels hprepared
  cases hok.symm.trans hp
  refine ⟨fun id => ?_, fun id => ?_, fun id => ?_, fun id => ?_, fun id => ?_, root,
    hcompiled.outermost_eq.1, hcompiled.prepared.tree.traversal_root_perm hcompiled.outermost_eq.1,
    fun id kind hk => hcompiled.prepared.tree.traversal_eq hk, hcompiled.emitted⟩ <;> rw [he]
  · exact (Binding.ofArena_settled htree hb id).boundRight.isSome_eq
  · exact hprepared.typed.isSome_eq id
  · exact (htables id).2
  · exact (htables id).1.1
  · exact htrees id

/-- The literal in a nested function has its characters in front of the function, both stand in
front of the literal that is handed to it, and the function around them comes behind. -/
theorem inventory_of_where :
    ∃ compilation, ofSource "test" ("fun f(): string = g('out') \x7bwhere var n: integer; " ++
        "fun g(b: string): string = 'in'\x7d; var s: string") = .ok compilation ∧
      (∀ id, (compilation.program.layout.frames.get? id).isSome =
        (compilation.program.arena.kind? id).any NodeKind.isFunction) ∧
      List.Forall₂ (Lowering.Emitted compilation.program) [⟨8⟩, ⟨9⟩, ⟨1⟩, ⟨12⟩, ⟨14⟩]
        compilation.chunks.toList := by
  obtain ⟨compilation, h, hlist⟩ : ∃ compilation, ofSource "test"
      ("fun f(): string = g('out') \x7bwhere var n: integer; " ++
        "fun g(b: string): string = 'in'\x7d; var s: string") = .ok compilation ∧
      (compilation.program.arena.root.map fun root =>
        (compilation.program.arena.traversal root).filter compilation.program.arena.emits) =
          some [⟨8⟩, ⟨9⟩, ⟨1⟩, ⟨12⟩, ⟨14⟩] :=
    exists_of_any (by decide +kernel)
  obtain ⟨_, _, hframes, _, _, root, hroot, _, _, hemitted⟩ := inventory h
  rw [hroot, Option.map_some, Option.some.injEq] at hlist
  exact ⟨compilation, h, hframes, hlist ▸ hemitted⟩

end Compilation

end Pins
