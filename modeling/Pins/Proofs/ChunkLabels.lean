import Pins.Proofs.Inventory

/-!
# The labels of chunks

No two chunks of a compilation have one label (`Compiled.nodup_labels`), so a label leads to one
chunk (`filter_label?_eq`). Functions and variables are told apart by what their labels belong to.
The characters of literals are numbered in the order of their chunks, behind all functions
(`Numbered`).
-/

namespace Pins

variable {chunk : Chunk} {chunks : List Chunk} {label : Label}

/-- Where labels differ, one chunk has a label that any has. -/
theorem filter_label?_eq (h : (chunks.filterMap Chunk.label?).Nodup) (hm : chunk ∈ chunks)
    (hl : chunk.label? = some label) :
    chunks.filter (fun other => other.label? = some label) = [chunk] := by
  induction chunks with
  | nil => cases hm
  | cons first others ih =>
    rw [List.filterMap_cons] at h
    by_cases hf : first.label? = some label
    · rw [hf, List.nodup_cons] at h
      obtain ⟨hfresh, _⟩ := h
      have hnone : ∀ other ∈ others, other.label? ≠ some label :=
        fun other ho he => hfresh (List.mem_filterMap.mpr ⟨other, ho, he⟩)
      have hsame : chunk = first := (List.mem_cons.mp hm).resolve_right fun ho => hnone chunk ho hl
      rw [List.filter_cons_of_pos (by simpa using hf),
        List.filter_eq_nil_iff.mpr (by simpa using hnone), hsame]
    · have hrest : (others.filterMap Chunk.label?).Nodup := by
        cases he : first.label? with
        | none => simpa [he] using h
        | some other =>
          rw [he] at h
          exact (List.nodup_cons.mp h).2
      have hin : chunk ∈ others := (List.mem_cons.mp hm).resolve_left fun he => hf (he ▸ hl)
      rw [List.filter_cons_of_neg (by simpa using hf)]
      exact ih hrest hin

/-- A chunk that is found by its label is there and has the label. -/
theorem mem_of_filter_eq {chunks : List Chunk} {chunk : Chunk} {label : Label}
    (h : chunks.filter (fun other => other.label? = some label) = [chunk]) :
    chunk ∈ chunks ∧ chunk.label? = some label := by
  have hm : chunk ∈ chunks.filter fun other => other.label? = some label := by simp [h]
  simpa using List.mem_filter.mp hm

/-- Lists that belong together member by member have their pairs belong together. -/
theorem pairwise_of_forall₂ {α β : Type} {fits : α → β → Prop} {apart : α → α → Prop}
    {first : List α} {second : List β} (h : List.Forall₂ fits first second)
    (hp : first.Pairwise apart) : second.Pairwise fun member other =>
      ∃ item item', apart item item' ∧ fits item member ∧ fits item' other := by
  rw [List.pairwise_iff_getElem] at hp ⊢
  intro i j hi hj hlt
  have hlength := h.length_eq
  exact ⟨_, _, hp i j (by omega) (by omega) hlt, h.get (by omega) hi, h.get (by omega) hj⟩

/-- No node is listed twice. -/
theorem Arena.nodup_ids {arena : Arena} : arena.ids.Nodup :=
  List.Pairwise.map NodeId.mk (fun _ _ hne he => hne (NodeId.mk.inj he)) List.nodup_range

/-- The number of the label of characters. -/
def Chunk.number? : Chunk → Option Nat
  | data (.global _ (.generated number)) _ => some number
  | _ => none

/-- What has a number is characters with a generated label. -/
theorem Chunk.number?_eq_some_iff {number : Nat} :
    chunk.number? = some number ↔
      ∃ size value, chunk = .data (.global size (.generated number)) value := by
  constructor
  · intro h
    unfold Chunk.number? at h
    split at h
    · cases h
      exact ⟨_, _, rfl⟩
    · cases h
  · rintro ⟨size, value, rfl⟩
    rfl

namespace Lowering

variable {program : Program} {labels labels₁ labels₂ labels₃ rest : LabelSupply}
  {chunks chunks' : List Chunk}

/-- The characters of literals have the labels of a supply, in their order. -/
structure Numbered (labels rest : LabelSupply) (chunks : List Chunk) : Prop where
  /-- Labels are only taken. -/
  supply : labels.next ≤ rest.next
  /-- Characters have labels that were taken. -/
  range : ∀ number ∈ chunks.filterMap Chunk.number?, labels.next ≤ number ∧ number < rest.next
  /-- The later characters have the larger number. -/
  ascending : (chunks.filterMap Chunk.number?).Pairwise (· < ·)

namespace Numbered

/-- Where there are no characters, labels may be taken for something else. -/
theorem of_none (hle : labels.next ≤ rest.next) (hn : chunks.filterMap Chunk.number? = []) :
    Numbered labels rest chunks :=
  ⟨hle, by simp [hn], by simp [hn]⟩

/-- Chunks that are lowered one behind the other take their labels so. -/
theorem append (hf : Numbered labels₁ labels₂ chunks) (hs : Numbered labels₂ labels₃ chunks') :
    Numbered labels₁ labels₃ (chunks ++ chunks') := by
  have hsupply := hf.supply
  have hsupply' := hs.supply
  refine ⟨by omega, fun number hm => ?_, ?_⟩
  · rw [List.filterMap_append, List.mem_append] at hm
    rcases hm with hm | hm
    · have hrange := hf.range number hm
      omega
    · have hrange := hs.range number hm
      omega
  · rw [List.filterMap_append, List.pairwise_append]
    refine ⟨hf.ascending, hs.ascending, fun number hm other ho => ?_⟩
    have hrange := hf.range number hm
    have hrange' := hs.range other ho
    omega

end Numbered

/-- Characters are numbered as they are lowered. -/
def numberedTally (program : Program) : Tally program where
  holds _ _ labels _ chunks rest := Numbered labels rest chunks
  silent _ _ := .of_none (Nat.le_refl _) rfl
  append _ _ hf hs := hf.append hs
  append_back _ _ hf hs := hf.append hs
  node {first level labels₁ labels₂ labels₃ id item codes code chunks own} _ _ _ hc hd := by
    refine hd.append ?_
    cases hc with
    | string =>
      exact ⟨Nat.le_succ _, by simp [Chunk.number?, LabelSupply.label, LabelSupply.rest],
        List.pairwise_singleton _ _⟩
    | integer | logical | name | routine | call | operation | index | assign | unary | block
    | conditional | whileLoop | forLoop =>
      exact .of_none (by simp +arith [LabelSupply.rest]) rfl
  choice {first middle labels₁ labels₂ labels₃ id condition thenBranch elseBranch test thenCode
      elseCode chunks chunks'} _ _ _ hf he := by
    have hthen : Numbered labels₂ labels₂.rest.rest [] :=
      .of_none (by simp +arith [LabelSupply.rest]) rfl
    have hend : Numbered labels₃ labels₃.rest [] := .of_none (Nat.le_succ _) rfl
    simpa using (hf.append (hthen.append he)).append hend
  function _ _ _ _ hd := hd.append (.of_none (Nat.le_refl _) rfl)
  storage {labels id name written access} _ _ := by
    refine .of_none (Nat.le_refl _) ?_
    cases access <;> rfl

/-- What a label belongs to: the function with the frame, or what has storage under it. -/
def Holds (program : Program) (id : NodeId) (label : Label) : Prop :=
  (∃ frame, program.layout.frames.get? id = some frame ∧ frame.label = label) ∨
    ∃ size, program.layout.accesses.get? id = some (.global size label)

/-- A chunk that is no characters has the label of its node. -/
theorem Emitted.holds {id : NodeId} {chunk : Chunk} {label : Label}
    (h : Emitted program id chunk) (hn : chunk.number? = none) (hl : chunk.label? = some label) :
    Holds program id label := by
  cases h with
  | literal => cases hn
  | @storage _ _ access _ ha =>
    cases access with
    | global size found =>
      cases hl
      exact .inr ⟨size, ha⟩
    | inFrame | parameter => cases hl
  | code hc => exact .inl ⟨_, hc.1, Option.some.inj hl⟩

/-- A chunk with a number has the label of this number. -/
theorem label?_of_number? {chunk : Chunk} {number : Nat} (h : chunk.number? = some number) :
    chunk.label? = some (.generated number) := by
  obtain ⟨size, value, rfl⟩ := Chunk.number?_eq_some_iff.mp h
  rfl

end Lowering

namespace Compiled

variable {compilation : Compilation} {root id other : NodeId} {members : List NodeId}
  {labels rest : LabelSupply}

/-- A label belongs to one definition. -/
theorem holds_unique (h : Compiled compilation root members labels rest)
    (hid : Lowering.Holds compilation.program id label)
    (ho : Lowering.Holds compilation.program other label) : id = other := by
  rcases hid with ⟨frame, hf, hl⟩ | ⟨size, ha⟩
  · rcases ho with ⟨frame', hf', hl'⟩ | ⟨size', ha'⟩
    · exact h.frame_unique hf hf' (hl.trans hl'.symm)
    · exact absurd hl (h.frame_ne_access hf ha')
  · rcases ho with ⟨frame', hf', hl'⟩ | ⟨size', ha'⟩
    · exact absurd hl' (h.frame_ne_access hf' ha)
    · exact h.access_unique ha ha'

/-- The generated labels of definitions were drawn before any other. -/
theorem lt_of_holds (h : Compiled compilation root members labels rest) {number : Nat}
    (hid : Lowering.Holds compilation.program id (.generated number)) : number < labels.next := by
  rcases hid with ⟨frame, hf, hl⟩ | ⟨size, ha⟩
  · rcases h.labelled.frame hf with ⟨_, definition, _, hn⟩ | ⟨found, hlt, hg⟩
    · cases hl.symm.trans hn
    · cases hl.symm.trans hg
      exact hlt
  · obtain ⟨name, hn⟩ := h.named ha
    cases hn

/-- Exactly the functions have frames. -/
theorem isSome_frame (h : Compiled compilation root members labels rest) (id : NodeId) :
    (compilation.program.layout.frames.get? id).isSome =
      (compilation.program.arena.kind? id).any NodeKind.isFunction := by
  have hright : ∀ kind, compilation.program.arena.kind? id = some kind →
      Layout.FrameRight compilation.program.arena id
        (compilation.program.layout.frames.get? id) := fun kind hk =>
    h.prepared.laidOut.frame id (Arena.index_lt_size hk)
  cases hf : compilation.program.layout.frames.get? id with
  | some frame =>
    have hlevel := (h.prepared.laidOut.framed hf).level
    generalize frame.level = level at hlevel
    cases hlevel with
    | inside he _ =>
      obtain ⟨kind, hk⟩ := he.exists_kind h.prepared.tree
      exact hf ▸ hright kind hk
  | none =>
    cases hk : compilation.program.arena.kind? id with
    | some kind => exact hk ▸ hf ▸ hright kind hk
    | none => rfl

/-- A frame is that of one function, which has code. -/
theorem exists_code (h : Compiled compilation root members labels rest) {frame : Frame}
    (hf : compilation.program.layout.frames.get? id = some frame) :
    ∃ code, Chunk.code frame code ∈ compilation.chunks.toList ∧
      Lowering.Codes compilation.program id frame code := by
  have hfunction := h.isSome_frame id
  rw [hf, Option.isSome_some, eq_comm, Option.any_eq_true] at hfunction
  obtain ⟨kind, hk, hkind⟩ := hfunction
  have hfront : id.index < root.index := h.index_lt hk fun members he => by cases he ▸ hkind
  obtain ⟨found, code, hm, hcodes⟩ := h.codesOf.total id kind (Nat.zero_le _) hfront hk hkind
  cases hf.symm.trans hcodes.1
  exact ⟨code, hm, hcodes⟩

/-- The characters of all literals are numbered. -/
theorem numbered (h : Compiled compilation root members labels rest) :
    Lowering.Numbered labels rest compilation.chunks.toList :=
  (Lowering.numberedTally compilation.program).holds_of_lowers h.lowers h.stands

/-- Chunks of two nodes have two labels, if the later one has the larger number. -/
theorem label?_ne (h : Compiled compilation root members labels rest) {chunk other : Chunk}
    {node node' : NodeId} (he : Lowering.Emitted compilation.program node chunk)
    (ho : Lowering.Emitted compilation.program node' other) (hne : node ≠ node')
    (hbehind : ∀ number ∈ chunk.number?, labels.next ≤ number)
    (hbehind' : ∀ number ∈ other.number?, labels.next ≤ number)
    (hlt : ∀ number ∈ chunk.number?, ∀ number' ∈ other.number?, number < number')
    (hl : chunk.label? = some label) : other.label? ≠ some label := by
  intro hl'
  cases hc : chunk.number? with
  | some number =>
    have hgenerated : label = .generated number :=
      Option.some.inj (hl.symm.trans (Lowering.label?_of_number? hc))
    cases hc' : other.number? with
    | some number' =>
      have hgenerated' : label = .generated number' :=
        Option.some.inj (hl'.symm.trans (Lowering.label?_of_number? hc'))
      have hsame : number = number' := Label.generated.inj (hgenerated.symm.trans hgenerated')
      have hnumber := hlt number hc number' hc'
      omega
    | none =>
      have hnumber := h.lt_of_holds (hgenerated ▸ ho.holds hc' hl')
      have hnumber' := hbehind number hc
      omega
  | none =>
    have hholds := he.holds hc hl
    cases hc' : other.number? with
    | some number' =>
      have hgenerated' : label = .generated number' :=
        Option.some.inj (hl'.symm.trans (Lowering.label?_of_number? hc'))
      have hnumber := h.lt_of_holds (hgenerated' ▸ hholds)
      have hnumber' := hbehind' number' hc'
      omega
    | none => exact hne (h.holds_unique hholds (ho.holds hc' hl'))

/-- No two chunks have one label. -/
theorem nodup_labels (h : Compiled compilation root members labels rest) :
    (compilation.chunks.toList.filterMap Chunk.label?).Nodup := by
  have hids : ((compilation.program.arena.traversal root).filter
      compilation.program.arena.emits).Nodup := by
    have hperm := h.prepared.tree.traversal_root_perm h.outermost_eq.1
    exact (hperm.nodup_iff.mpr Arena.nodup_ids).filter _
  have hnumbered := h.numbered
  have hbehind : ∀ chunk ∈ compilation.chunks.toList, ∀ number ∈ chunk.number?,
      labels.next ≤ number := fun chunk hm number hn =>
    (hnumbered.range number (List.mem_filterMap.mpr ⟨chunk, hm, hn⟩)).1
  have hpairs := (pairwise_of_forall₂ h.emitted hids).and
    (List.pairwise_filterMap.mp hnumbered.ascending)
  refine List.pairwise_filterMap.mpr (hpairs.imp_of_mem fun {chunk other} hm ho hpair => ?_)
  rintro label hl _ hl' rfl
  obtain ⟨⟨node, node', hne, he, he'⟩, hlt⟩ := hpair
  exact h.label?_ne he he' hne (hbehind chunk hm) (hbehind other ho) hlt hl hl'

end Compiled

end Pins
