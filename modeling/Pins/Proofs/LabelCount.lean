import Pins.Proofs.ChunkLabels
import Pins.Proofs.UniqueLabels

/-!
# How many labels are generated

Laying out takes a label for every function that stands in another one (`Compiled.next_labels`), and
lowering takes as many as a node needs (`NodeKind.labelCount`): none for most of them, one for the
characters of a literal, two or three for a choice or a loop. So the number of generated labels of a
program comes from its tree alone (`Compiled.next_rest`).

No number is left out: below `labels` each one is that of a function, and behind it lowering defines
each label that it takes (`Taken`).
-/

namespace Pins

/-- The number of labels that lowering takes for a node. -/
def NodeKind.labelCount : NodeKind → Nat
  | expression (.literal _ .string) => 1
  | expression (.conditional _ _ none) => 2
  | expression (.conditional _ _ (some _)) | expression (.whileLoop ..)
  | expression (.forLoop ..) => 3
  | _ => 0

/-- The number of a generated label. -/
def Label.number? : Label → Option Nat
  | named _ => none
  | generated number => some number

theorem Label.number?_eq_some_iff {label : Label} {number : Nat} :
    label.number? = some number ↔ label = .generated number := by
  cases label <;> simp [number?]

namespace Arena

variable {arena : Arena} {id : NodeId} {kind : NodeKind} {first middle last : Nat}

/-- A node is a function that does not stand outside all functions. -/
def isNested (arena : Arena) (id : NodeId) : Bool :=
  (arena.kind? id).any NodeKind.isFunction && !arena.outermost.contains id

/-- The number of labels that lowering takes for some nodes. -/
def labelsOf (arena : Arena) : List NodeId → Nat
  | [] => 0
  | id :: ids => ((arena.kind? id).map NodeKind.labelCount).getD 0 + arena.labelsOf ids

/-- The number of labels that lowering takes for an interval. -/
def labelsBetween (arena : Arena) (first last : Nat) : Nat :=
  arena.labelsOf (interval first last)

/-- The number of labels that are generated for a program: one for every function that stands in
another one, and those of lowering. -/
def labelCount (arena : Arena) : Nat :=
  arena.ids.countP arena.isNested + arena.labelsBetween 0 arena.size

/-- Every node is listed. -/
theorem mem_ids (hk : arena.kind? id = some kind) : id ∈ arena.ids :=
  List.mem_map.mpr ⟨id.index, List.mem_range.mpr (index_lt_size hk), rfl⟩

/-- Nodes that stand one behind the other take their labels together. -/
theorem labelsOf_append (ids ids' : List NodeId) :
    arena.labelsOf (ids ++ ids') = arena.labelsOf ids + arena.labelsOf ids' := by
  induction ids with
  | nil => simp [labelsOf]
  | cons id ids ih => simp [labelsOf, ih, Nat.add_assoc]

/-- Neighbouring intervals take their labels together. -/
theorem labelsBetween_append (hl : first ≤ middle) (hr : middle ≤ last) :
    arena.labelsBetween first last =
      arena.labelsBetween first middle + arena.labelsBetween middle last := by
  rw [labelsBetween, ← interval_append hl hr, labelsOf_append]
  rfl

/-- A node takes its labels. -/
theorem labelsBetween_succ (hk : arena.kind? id = some kind) :
    arena.labelsBetween id.index (id.index + 1) = kind.labelCount := by
  simp [labelsBetween, interval_succ, labelsOf, hk]

/-- Nodes take no labels if none of them does. -/
theorem labelsOf_eq_zero {ids : List NodeId}
    (h : ∀ id ∈ ids, ∀ kind, arena.kind? id = some kind → kind.labelCount = 0) :
    arena.labelsOf ids = 0 := by
  induction ids with
  | nil => rfl
  | cons id ids ih =>
    have hrest := ih fun other hm => h other (List.mem_cons_of_mem _ hm)
    have hfirst : ((arena.kind? id).map NodeKind.labelCount).getD 0 = 0 := by
      cases hk : arena.kind? id with
      | none => rfl
      | some kind => exact h id List.mem_cons_self kind hk
    rw [labelsOf, hfirst, hrest]

/-- Silent nodes take no labels. -/
theorem Silent.labelsBetween (h : arena.Silent first last) :
    arena.labelsBetween first last = 0 := by
  refine labelsOf_eq_zero fun id hm kind hk => ?_
  obtain ⟨hf, hl⟩ := mem_interval_iff.mp hm
  have hs := h id kind hf hl hk
  cases kind with
  | expression item => cases item <;> first | rfl | cases hs
  | definitions | definition | type => rfl

end Arena

namespace Lowering

open Ir (Effect Expr)

variable {program : Program} {first middle last level : Nat} {id : NodeId} {item : Expression}
  {labels labels₁ labels₂ labels₃ rest : LabelSupply} {codes : List Expr} {code : Expr}
  {chunks own : List Chunk} {list list' : List Label}

/-- The labels between two supplies are those that an interval takes, and all of them are found in a
list. -/
structure Taken (program : Program) (first last : Nat) (labels rest : LabelSupply)
    (list : List Label) : Prop where
  /-- The interval says how many labels are taken. -/
  count : rest.next = labels.next + program.arena.labelsBetween first last
  /-- A label that is taken is in the list. -/
  defined : ∀ number, labels.next ≤ number → number < rest.next → .generated number ∈ list

namespace Taken

/-- Where no label is taken, none need be found. -/
theorem of_none (h : program.arena.labelsBetween first last = 0) :
    Taken program first last labels labels list :=
  ⟨by omega, fun number hf hl => absurd hl (by omega)⟩

theorem perm (h : Taken program first last labels rest list) (hp : list.Perm list') :
    Taken program first last labels rest list' :=
  ⟨h.count, fun number hf hl => hp.mem_iff.mp (h.defined number hf hl)⟩

/-- Two intervals that make up a third one take their labels one behind the other. -/
theorem join {start stop start' stop' : Nat}
    (hi : program.arena.labelsBetween first last =
      program.arena.labelsBetween start stop + program.arena.labelsBetween start' stop')
    (hf : Taken program start stop labels₁ labels₂ list)
    (hs : Taken program start' stop' labels₂ labels₃ list') :
    Taken program first last labels₁ labels₃ (list ++ list') := by
  have hcount := hf.count
  have hcount' := hs.count
  refine ⟨by omega, fun number hfirst hlast => ?_⟩
  rcases Nat.lt_or_ge number labels₂.next with hlt | hge
  · exact List.mem_append_left _ (hf.defined number hfirst hlt)
  · exact List.mem_append_right _ (hs.defined number hge hlast)

/-- Neighbouring intervals take their labels one behind the other. -/
theorem append (hl : first ≤ middle) (hr : middle ≤ last)
    (hf : Taken program first middle labels₁ labels₂ list)
    (hs : Taken program middle last labels₂ labels₃ list') :
    Taken program first last labels₁ labels₃ (list ++ list') :=
  hf.join (Arena.labelsBetween_append hl hr) hs

/-- Neighbouring intervals take their labels one behind the other, the second one first. -/
theorem append_back (hl : first ≤ middle) (hr : middle ≤ last)
    (hf : Taken program middle last labels₁ labels₂ list)
    (hs : Taken program first middle labels₂ labels₃ list') :
    Taken program first last labels₁ labels₃ (list ++ list') :=
  hf.join (by rw [Arena.labelsBetween_append hl hr, Nat.add_comm]) hs

/-- An expression takes the labels that it draws. -/
theorem node (hk : program.arena.kind? id = some (.expression item))
    (h : Combines program level id item codes labels code own rest) :
    Taken program id.index (id.index + 1) labels rest (drawnLabels labels item) := by
  have hcount := Arena.labelsBetween_succ hk
  cases h with
  | string | conditional | whileLoop | forLoop =>
    refine ⟨by rw [hcount]; rfl, fun number hf hl => ?_⟩
    simp only [LabelSupply.next_rest] at hl
    simp only [drawnLabels, LabelSupply.label, LabelSupply.rest, List.mem_cons,
      Label.generated.injEq, List.not_mem_nil, or_false]
    omega
  | integer | logical | name | routine | call | operation | index | assign | unary | block =>
    exact of_none hcount

end Taken

/-- Lowering takes the labels of an interval, and defines them. -/
def takenTally (program : Program) : Tally program where
  holds first last labels codes chunks rest :=
    Taken program first last labels rest (definedLabels codes chunks)
  silent _ hs := .of_none hs.labelsBetween
  append hl hr hf hs := (hf.append hl hr hs).perm (definedLabels_append _ _ _ _)
  append_back hl hr hf hs := (hf.append_back hl hr hs).perm (definedLabels_append _ _ _ _)
  node {first level labels₁ labels₂ labels₃ id item codes code chunks own} hk hf hl hc hd := by
    have htaken := hd.append hf.le (Nat.le_succ _) (.node hk hc)
    refine ⟨htaken.count, fun number hfirst hlast => ?_⟩
    refine (hc.definedLabels_perm chunks).mem_iff.mp ?_
    have hmem := htaken.defined number hfirst hlast
    simp only [List.mem_append] at hmem ⊢
    exact hmem.imp_left .inl
  choice {first middle labels₁ labels₂ labels₃ id condition thenBranch elseBranch test thenCode
      elseCode chunks chunks'} hk hl hr hf he := by
    have hcount := hf.count
    have hcount' := he.count
    simp only [LabelSupply.next_rest] at hcount'
    refine ⟨?_, fun number hfirst hlast => ?_⟩
    · have hnode := Arena.labelsBetween_succ hk
      rw [Arena.labelsBetween_append (Nat.le_trans hl hr) (Nat.le_succ _),
        Arena.labelsBetween_append hl hr, hnode]
      simp only [LabelSupply.next_rest, NodeKind.labelCount]
      omega
    · rw [LabelSupply.next_rest] at hlast
      refine (definedLabels_choice labels₂ labels₃ test thenCode elseCode chunks chunks').mem_iff.mp
        ?_
      simp only [List.mem_append, List.mem_singleton, LabelSupply.label, LabelSupply.next_rest,
        Label.generated.injEq]
      -- the label of a part, or one of the three that the choice takes itself
      rcases Nat.lt_or_ge number labels₂.next with hlt | hge
      · exact .inl (.inl (.inl (.inl (hf.defined number hfirst hlt))))
      · by_cases helse : labels₂.next + 2 ≤ number ∧ number < labels₃.next
        · exact .inl (.inr (he.defined number helse.1 helse.2))
        · have hown : number = labels₂.next ∨ number = labels₂.next + 1 ∨
              number = labels₃.next := by omega
          rcases hown with rfl | rfl | rfl <;> simp
  function {first labels₁ labels₂ id name parameters result body frame value chunks} hk _ hle _
      hd := by
    have hown : Taken program id.index (id.index + 1) labels₂ labels₂ [] :=
      .of_none (Arena.labelsBetween_succ hk)
    have hvalue := hd.append hle (Nat.le_succ _) hown
    rw [List.append_nil] at hvalue
    exact hvalue.perm (definedLabels_function frame value chunks)
  storage hk _ := .of_none (Arena.labelsBetween_succ hk)

end Lowering

namespace Compiled

variable {compilation : Compilation} {root id : NodeId} {members : List NodeId}
  {labels rest : LabelSupply} {number : Nat}

/-- Lowering takes the labels of the whole program, and defines them. -/
theorem taken (h : Compiled compilation root members labels rest) :
    Lowering.Taken compilation.program 0 root.index labels rest
      (Lowering.definedLabels [] compilation.chunks.toList) :=
  (Lowering.takenTally compilation.program).holds_of_lowers h.lowers h.stands

/-- The number of the generated label of a function. -/
def number? (compilation : Compilation) (id : NodeId) : Option Nat :=
  (compilation.program.layout.frames.get? id).bind fun frame => frame.label.number?

/-- A function has a number if its frame has a label with this number. -/
theorem number?_eq_some_iff : number? compilation id = some number ↔
    ∃ frame, compilation.program.layout.frames.get? id = some frame ∧
      frame.label = .generated number := by
  simp [number?, Option.bind_eq_some_iff, Label.number?_eq_some_iff]

section Tiled

variable (htiled : ∀ {id frame}, compilation.program.layout.frames.get? id = some frame →
  Layout.Tiled compilation.program.arena compilation.program.types
    compilation.program.layout.accesses id frame)

include htiled

/-- A function outside all others has its name for a label. -/
theorem label_of_mem (h : Compiled compilation root members labels rest) (hm : id ∈ members)
    {frame : Frame} (hf : compilation.program.layout.frames.get? id = some frame) :
    ∃ name, frame.label = .named name := by
  have hlevel : frame.level = 0 + 1 :=
    (h.prepared.laidOut.framed hf).level.unique h.prepared.tree
      (.inside (h.encloses_of_mem hm) .outside)
  obtain ⟨definition, _, hl⟩ := (htiled hf).label hlevel
  exact ⟨definition.name, hl⟩

/-- Exactly the functions that stand in other ones have numbers. -/
theorem isSome_number? (h : Compiled compilation root members labels rest) (id : NodeId) :
    (number? compilation id).isSome = compilation.program.arena.isNested id := by
  have hframe := h.isSome_frame id
  simp only [number?, Arena.isNested, h.outermost_eq.2, ← hframe]
  cases hf : compilation.program.layout.frames.get? id with
  | none => rfl
  | some frame =>
    by_cases hm : id ∈ members
    · obtain ⟨name, hl⟩ := h.label_of_mem htiled hm hf
      simp [hl, hm, Label.number?]
    · rcases h.labelled.frame hf with hn | ⟨number, _, hl⟩
      · exact absurd hn.1 hm
      · simp [hl, hm, Label.number?]

/-- Every function that stands in another one takes a label, and nothing else does before
lowering. -/
theorem next_labels (h : Compiled compilation root members labels rest) :
    labels.next = compilation.program.arena.ids.countP compilation.program.arena.isNested := by
  have hnodup : (compilation.program.arena.ids.filterMap (number? compilation)).Nodup := by
    refine List.pairwise_filterMap.mpr (Arena.nodup_ids.imp fun {id other} hne => ?_)
    rintro number hn _ hn' rfl
    obtain ⟨frame, hf, hl⟩ := number?_eq_some_iff.mp hn
    obtain ⟨frame', hf', hl'⟩ := number?_eq_some_iff.mp hn'
    exact hne (h.labelled.once hf hf' hl hl')
  have hmem : ∀ number, number ∈ compilation.program.arena.ids.filterMap (number? compilation) ↔
      number ∈ List.range labels.next := by
    intro number
    rw [List.mem_filterMap, List.mem_range]
    constructor
    · rintro ⟨id, _, hn⟩
      obtain ⟨frame, hf, hl⟩ := number?_eq_some_iff.mp hn
      exact h.lt_of_holds (.inl ⟨frame, hf, hl⟩)
    · intro hlt
      obtain ⟨id, frame, hf, hl⟩ := h.drawn number hlt
      have hfunction := h.isSome_frame id
      rw [hf, Option.isSome_some, eq_comm, Option.any_eq_true] at hfunction
      obtain ⟨kind, hk, _⟩ := hfunction
      exact ⟨id, Arena.mem_ids hk, number?_eq_some_iff.mpr ⟨frame, hf, hl⟩⟩
  have hperm := (List.perm_ext_iff_of_nodup hnodup List.nodup_range).mpr hmem
  calc labels.next
      = (List.range labels.next).length := List.length_range.symm
    _ = (compilation.program.arena.ids.filterMap (number? compilation)).length :=
        hperm.length_eq.symm
    _ = compilation.program.arena.ids.countP fun id => (number? compilation id).isSome :=
        List.length_filterMap_eq_countP
    _ = compilation.program.arena.ids.countP compilation.program.arena.isNested :=
        List.countP_congr fun id _ => by rw [h.isSome_number? htiled id]

/-- The number of generated labels comes from the tree of the program. -/
theorem next_rest (h : Compiled compilation root members labels rest) :
    rest.next = compilation.program.arena.labelCount := by
  have hroot : compilation.program.arena.labelsBetween root.index (root.index + 1) = 0 :=
    Arena.labelsBetween_succ h.kind
  rw [h.taken.count, h.next_labels htiled, Arena.labelCount, ← h.ends,
    Arena.labelsBetween_append (Nat.zero_le _) (Nat.le_succ _), hroot, Nat.add_zero]

end Tiled

end Compiled

end Pins
