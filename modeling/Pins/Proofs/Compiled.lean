import Pins.Proofs.Labelled
import Pins.Proofs.Progress
import Pins.Proofs.Tally

/-!
# Compiled programs

What is known about any source that compiles: its tree, what each pass found out about it, and that
its chunks were lowered from its top-level definitions by the rules (`ofSource_compiled`). The
labels of functions and of storage tell these apart, and exactly the functions have code
(`Compiled.codesOf`).
-/

namespace Pins

/-- A compilation of a program whose root lists `members`; lowering began with `labels` and left
`rest`. -/
structure Compiled (compilation : Compilation) (root : NodeId) (members : List NodeId)
    (labels rest : LabelSupply) : Prop where
  /-- The passes before lowering did their work. -/
  prepared : Lowering.Prepared compilation.program
  /-- The root is the last node. -/
  ends : root.index + 1 = compilation.program.arena.size
  /-- The root lists the top-level definitions. -/
  kind : compilation.program.arena.kind? root = some (.definitions members)
  /-- The top-level definitions fill the arena in front of the root. -/
  forest : compilation.program.arena.Forest 0 (NodeKind.definitions members).places root.index
  /-- No two top-level definitions have one name. -/
  names : ∀ {id other definition definition'}, id ∈ members → other ∈ members →
    compilation.program.arena.definition? id = some definition →
    compilation.program.arena.definition? other = some definition' →
    definition.name = definition'.name → id = other
  /-- Functions and top-level variables are labelled. -/
  labelled : Layout.Labelled compilation.program.arena members compilation.program.layout
    labels.next
  /-- Every label that was taken before lowering is that of a function. -/
  drawn : ∀ number < labels.next, ∃ id frame,
    compilation.program.layout.frames.get? id = some frame ∧ frame.label = .generated number
  /-- The chunks come from the top-level definitions. -/
  lowers : Lowering.Lowers compilation.program 0 labels (.definitions members) []
    compilation.chunks.toList rest

/-- A silent node is no function. -/
theorem NodeKind.isFunction_of_isSilent {kind : NodeKind} (h : kind.isSilent = true) :
    kind.isFunction = false := by
  cases kind with
  | definition item => cases item <;> first | rfl | cases h
  | definitions | expression | type => rfl

namespace Lowering

/-- A function has its frame, and its code is made of its body. -/
def Codes (program : Program) (id : NodeId) (frame : Frame) (code : Ir.Stmt) : Prop :=
  program.layout.frames.get? id = some frame ∧ ∃ name parameters result body value,
    program.arena.kind? id = some (.definition (.function name parameters result body)) ∧
      code = .move (.memory Ir.framePointer) value ∧ ∃ labels chunks rest,
        Lowers program frame.level labels (.expression body) [value] chunks rest

/-- The functions of an interval are those that have code there. -/
structure CodesOf (program : Program) (first last : Nat) (chunks : List Chunk) : Prop where
  /-- Every function has code. -/
  total : ∀ id kind, first ≤ id.index → id.index < last → program.arena.kind? id = some kind →
    kind.isFunction = true →
      ∃ frame code, Chunk.code frame code ∈ chunks ∧ Codes program id frame code
  /-- All code is that of a function. -/
  sound : ∀ frame code, Chunk.code frame code ∈ chunks → ∃ id, Codes program id frame code

namespace CodesOf

variable {program : Program} {first middle last : Nat} {id : NodeId} {chunks chunks' : List Chunk}

/-- Chunks of two intervals are those of both. -/
theorem append (hf : CodesOf program first middle chunks)
    (hs : CodesOf program middle last chunks') :
    CodesOf program first last (chunks ++ chunks') := by
  constructor
  · intro id kind hfirst hlast hk hfunction
    rcases Nat.lt_or_ge id.index middle with hlt | hge
    · obtain ⟨frame, code, hm, hc⟩ := hf.total id kind hfirst hlt hk hfunction
      exact ⟨frame, code, List.mem_append_left _ hm, hc⟩
    · obtain ⟨frame, code, hm, hc⟩ := hs.total id kind hge hlast hk hfunction
      exact ⟨frame, code, List.mem_append_right _ hm, hc⟩
  · intro frame code hm
    exact (List.mem_append.mp hm).elim (hf.sound frame code) (hs.sound frame code)

theorem perm (h : CodesOf program first last chunks) (hp : chunks.Perm chunks') :
    CodesOf program first last chunks' := by
  constructor
  · intro id kind hfirst hlast hk hfunction
    obtain ⟨frame, code, hm, hc⟩ := h.total id kind hfirst hlast hk hfunction
    exact ⟨frame, code, hp.mem_iff.mp hm, hc⟩
  · intro frame code hm
    exact h.sound frame code (hp.mem_iff.mpr hm)

/-- Behind an interval, a node that is no function has no code. -/
theorem snoc {kind : NodeKind} (h : CodesOf program first id.index chunks)
    (hk : program.arena.kind? id = some kind) (hn : kind.isFunction = false)
    (ho : ∀ frame code, Chunk.code frame code ∉ chunks') :
    CodesOf program first (id.index + 1) (chunks ++ chunks') := by
  refine h.append ⟨fun other kind' hf hl hk' hfunction => ?_,
    fun frame code hm => absurd hm (ho frame code)⟩
  obtain rfl : other = id := NodeId.eq_of_index (by omega)
  cases hk.symm.trans hk'
  cases hn.symm.trans hfunction

theorem refl : CodesOf program first first [] :=
  ⟨fun _ _ hf hl => absurd hl (by omega), by simp⟩

end CodesOf

/-- Every function has code, and all code is that of a function. -/
def codesTally (program : Program) : Tally program where
  holds first last _ _ chunks _ := CodesOf program first last chunks
  silent {first last _} _ hs := by
    refine ⟨fun id kind hf hl hk hfunction => ?_, by simp⟩
    cases (NodeKind.isFunction_of_isSilent (hs id kind hf hl hk)).symm.trans hfunction
  append _ _ hf hs := hf.append hs
  append_back _ _ hf hs := (hs.append hf).perm List.perm_append_comm
  node {first level labels₁ labels₂ labels₃ id item codes code chunks own} hk hf hl hc hd := by
    refine hd.snoc hk rfl fun frame body hm => ?_
    cases hc <;> simp at hm
  choice hk _ _ hf he := by
    simpa using (hf.append he).snoc hk rfl (by simp : ∀ frame code, Chunk.code frame code ∉ [])
  function {first labels₁ labels₂ id name parameters result body frame value chunks} hk hframe hle
      hl hd := by
    have hcodes : Codes program id frame (.move (.memory Ir.framePointer) value) :=
      ⟨hframe, _, _, _, _, value, hk, rfl, _, _, _, hl⟩
    refine hd.append ⟨fun other kind hf hlast _ _ => ?_, fun frame' code hm => ?_⟩
    · obtain rfl : other = id := NodeId.eq_of_index (by omega)
      exact ⟨_, _, List.mem_singleton.mpr rfl, hcodes⟩
    · cases List.mem_singleton.mp hm
      exact ⟨id, hcodes⟩
  storage {labels id name written access} hk _ := by
    refine CodesOf.refl.snoc hk rfl fun frame code hm => ?_
    cases access <;> simp at hm

end Lowering

variable {compilation : Compilation} {root id other : NodeId} {members : List NodeId}
  {labels rest : LabelSupply} {frame frame' : Frame} {size size' : Nat} {label : Label}

/-- Whatever compiles is a compiled program. -/
theorem Compilation.ofSource_compiled {file source : String}
    (h : ofSource file source = .ok compilation) :
    ∃ root members labels rest, Compiled compilation root members labels rest := by
  obtain ⟨tokens, arena, _, hparse, ha⟩ := ofSource_eq_ok h
  obtain ⟨bindings, types, layout, labels, hb, ht, hl, hp, he⟩ := ofArena_eq_ok ha
  have htree := parse_isTree hparse
  have hprepared := prepared htree hb ht hl
  have ⟨root, hroot, hsize, hs⟩ := htree
  obtain ⟨kind, hk, hadmits, _, hforest⟩ := Arena.subtree_iff.mp hs
  cases kind with
  | definition | expression | type => cases hadmits
  | definitions members =>
    have hdefinitions : ∀ member ∈ members, (arena.definition? member).isSome := by
      intro member hm
      have hplace : (Place.definition, member) ∈ (NodeKind.definitions members).places :=
        List.mem_map.mpr ⟨member, hm, rfl⟩
      obtain ⟨_, hsub, _, _⟩ := hs.child hk hplace
      exact hsub.isSome_definition?
    obtain ⟨rest, hlowers⟩ := Lowering.ofProgram_lowers hroot hk hp
    refine ⟨root, members, labels, rest, ?_⟩
    rw [← he] at hprepared hlowers
    refine ⟨hprepared, ?_, ?_, ?_, ?_, ?_, ?_, hlowers⟩ <;> rw [he]
    · exact hsize
    · exact hk
    · exact hforest
    · intro id other definition definition' hm hm' hd hd' hn
      exact Binding.ofArena_names htree hk rfl hb hm hm' hd hd' hn
    · exact (Layout.ofArena_labelled hk hdefinitions hroot hl).2
    · exact fun number hlt =>
        Layout.ofArena_drawn hk hdefinitions hroot hl (Nat.zero_le number) hlt

namespace Compiled

/-- Storage under a label belongs to a top-level definition of that name. -/
theorem named (h : Compiled compilation root members labels rest)
    (ha : compilation.program.layout.accesses.get? id = some (.global size label)) :
    ∃ name, label = .named name := by
  obtain ⟨_, definition, _, he⟩ := h.labelled.access ha
  exact ⟨definition.name, he⟩

/-- No two top-level definitions have one label. -/
theorem named_unique (h : Compiled compilation root members labels rest)
    (hn : Layout.Named compilation.program.arena members id label)
    (hn' : Layout.Named compilation.program.arena members other label) : id = other := by
  obtain ⟨hm, definition, hd, rfl⟩ := hn
  obtain ⟨hm', definition', hd', he⟩ := hn'
  exact h.names hm hm' hd hd' (Label.named.inj he)

/-- No two functions have one label. -/
theorem frame_unique (h : Compiled compilation root members labels rest)
    (hf : compilation.program.layout.frames.get? id = some frame)
    (hf' : compilation.program.layout.frames.get? other = some frame')
    (he : frame.label = frame'.label) : id = other := by
  rcases h.labelled.frame hf with hn | ⟨number, _, hg⟩
  · rcases h.labelled.frame hf' with hn' | ⟨number, _, hg'⟩
    · exact h.named_unique hn (he ▸ hn')
    · obtain ⟨_, definition, _, hl⟩ := hn
      rw [he, hg'] at hl
      cases hl
  · exact h.labelled.once hf hf' hg (he ▸ hg)

/-- No two variables or types have one label. -/
theorem access_unique (h : Compiled compilation root members labels rest)
    (ha : compilation.program.layout.accesses.get? id = some (.global size label))
    (ha' : compilation.program.layout.accesses.get? other = some (.global size' label)) :
    id = other :=
  h.named_unique (h.labelled.access ha) (h.labelled.access ha')

/-- No function has the label of a variable or type. -/
theorem frame_ne_access (h : Compiled compilation root members labels rest)
    (hf : compilation.program.layout.frames.get? id = some frame)
    (ha : compilation.program.layout.accesses.get? other = some (.global size label)) :
    frame.label ≠ label := by
  intro he
  rcases h.labelled.frame hf with hn | ⟨number, _, hg⟩
  · obtain rfl := h.named_unique hn (he ▸ h.labelled.access ha)
    obtain ⟨_, definition, hd, _⟩ := hn
    have hk := Arena.kind?_of_definition? hd
    have haccess := (h.prepared.laidOut.access id (Arena.index_lt_size hk)).1
    have hframe := h.prepared.laidOut.frame id (Arena.index_lt_size hk)
    simp only [Layout.FrameRight, ha, hf, hk, Option.isSome_some,
      Option.any_some] at haccess hframe
    have hneither := NodeKind.isFunction_of_keepsValue haccess.symm
    rw [← hframe] at hneither
    cases hneither
  · obtain ⟨name, hl⟩ := h.named ha
    rw [← he, hg] at hl
    cases hl

/-- The top-level definitions stand in front of the root. -/
theorem stands (h : Compiled compilation root members labels rest) :
    (Lowering.Task.definitions members).Stands compilation.program.arena 0 root.index :=
  ⟨_, by simp [NodeKind.places, Function.comp_def, Lowering.Task.ids], h.forest⟩

/-- All functions have code, and all code is that of a function. -/
theorem codesOf (h : Compiled compilation root members labels rest) :
    Lowering.CodesOf compilation.program 0 root.index compilation.chunks.toList :=
  (Lowering.codesTally compilation.program).holds_of_lowers h.lowers h.stands

/-- A node other than the root stands in front of it. -/
theorem index_lt (h : Compiled compilation root members labels rest) {kind : NodeKind}
    (hk : compilation.program.arena.kind? id = some kind)
    (hn : ∀ members, kind ≠ .definitions members) : id.index < root.index := by
  have hsize := Arena.index_lt_size hk
  have hends := h.ends
  rcases Nat.lt_or_ge id.index root.index with hlt | hge
  · exact hlt
  · obtain rfl : id = root := NodeId.eq_of_index (by omega)
    exact absurd (Option.some.inj (hk.symm.trans h.kind)) (hn members)

/-- The targets in front of the root are all there are. -/
theorem targets_iff (h : Compiled compilation root members labels rest) {fits : NodeId → Prop} :
    compilation.program.arena.Targets fits 0 root.index ↔
      ∀ id target, compilation.program.arena.Assigns id target → fits target := by
  constructor
  · rintro ht id target ⟨value, he⟩
    have hlt := h.index_lt (Arena.kind?_of_expression? he) (by simp)
    exact ht id target (Nat.zero_le _) hlt ⟨value, he⟩
  · intro ha id target _ _ hassigns
    exact ha id target hassigns

end Compiled

end Pins
