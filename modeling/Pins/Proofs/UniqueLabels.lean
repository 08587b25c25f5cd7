import Pins.Proofs.Compiled
import Pins.Proofs.Effects

/-!
# Labels are defined once

Every label is drawn once, but an assignment repeats the code of its target: the code moves the
value there, and then reads it back. If the target has a choice or a loop in it, the labels of these
are defined twice; in all other programs no label is (`labels_nodup_iff`).

An interval of the tree draws its labels from an interval of the supply, so labels of neighbouring
intervals differ; only the repeated ones must be told apart from the others.
-/

namespace Pins

/-- No choice and no loop is computed with an expression. -/
def Arena.Straight (arena : Arena) (id : NodeId) : Prop :=
  ∀ part ∈ arena.own id, arena.isControl part = false

namespace Lowering

open Ir (Effect Expr Tree)

variable {program : Program} {first middle last level : Nat} {id : NodeId} {task : Task}
  {labels labels₁ labels₂ labels₃ rest : LabelSupply} {codes : List Expr} {chunks : List Chunk}
  {list list' : List Label}

/-- Exactly choices and loops define labels. -/
theorem label?_marks : Marks program Effect.label? Expression.isControl where
  node h := by
    cases h with
    | routine hr => simp [ownEffects, callEffects, hr, Effect.label?, Expression.isControl]
    | call hr hb hf =>
      simp [ownEffects, callEffects, hr, hb, hf, saveFramePointer, Ir.framePointer,
        Ir.stackPointer, Effect.label?, Expression.isControl]
    | @operation operator _ _ _ _ _ _ ho =>
      cases operator <;> cases ho <;> simp [ownEffects, Expression.isControl]
    | integer | logical | string | name | index | assign | unary | block | conditional | whileLoop
    | forLoop => simp [ownEffects, Effect.label?, Expression.isControl]
  choice := by simp [choiceEffects, Effect.label?, Expression.isControl]
  whereClause := rfl

/-- The labels that codes and chunks define. -/
def definedLabels (codes : List Expr) (chunks : List Chunk) : List Label :=
  codes.flatMap (Expr.collect Tree.label?) ++ chunks.flatMap Chunk.labels

/-- The labels that codes define are found in their effects. -/
theorem definedLabels_eq (codes : List Expr) (chunks : List Chunk) :
    definedLabels codes chunks =
      (codes.flatMap Expr.effects).filterMap Effect.label? ++ chunks.flatMap Chunk.labels := by
  rw [definedLabels, Ir.flatMap_collect_eq Tree.label?_eq_bind]

/-- The labels of two parts are those of the whole. -/
theorem definedLabels_append (codes codes' : List Expr) (chunks chunks' : List Chunk) :
    (definedLabels codes chunks ++ definedLabels codes' chunks').Perm
      (definedLabels (codes ++ codes') (chunks ++ chunks')) := by
  refine List.perm_iff_count.mpr fun label => ?_
  simp only [definedLabels, List.flatMap_append, List.count_append]
  omega

/-- The code of a choice defines the labels of its parts, and one in front of each branch and behind
the second one. -/
theorem definedLabels_choice (labels rest : LabelSupply) (test thenCode elseCode : Expr)
    (chunks chunks' : List Chunk) :
    (definedLabels [test, thenCode] chunks ++ [labels.label] ++ [labels.rest.label] ++
      definedLabels [elseCode] chunks' ++ [rest.label]).Perm
        (definedLabels [choiceCode labels rest test thenCode elseCode] (chunks ++ chunks')) := by
  refine List.perm_iff_count.mpr fun label => ?_
  have hcode := (choiceCode_filterMap_perm labels rest test thenCode elseCode
    Effect.label?).count_eq label
  simp only [definedLabels_eq, choiceEffects, Effect.label?, List.filterMap_cons,
    List.filterMap_nil, List.flatMap_cons, List.flatMap_nil, List.append_nil,
    List.filterMap_append, List.count_append, List.count_cons, List.count_nil,
    List.flatMap_append] at hcode ⊢
  omega

/-- The chunk of a function defines the labels of its value. -/
theorem definedLabels_function (frame : Frame) (value : Expr) (chunks : List Chunk) :
    (definedLabels [value] chunks).Perm
      (definedLabels [] (chunks ++ [.code frame (.move (.memory Ir.framePointer) value)])) := by
  refine List.perm_iff_count.mpr fun label => ?_
  simp [definedLabels, Chunk.labels, Expr.collect, Ir.Stmt.collect, Tree.label?, Ir.framePointer]
  omega

/-- The labels that an expression other than a choice of two branches draws behind its operands. -/
def drawnLabels (labels : LabelSupply) : Expression → List Label
  | .literal _ .string => [labels.label]
  | .conditional .. => [labels.label, labels.rest.label]
  | .whileLoop .. | .forLoop .. => [labels.label, labels.rest.label, labels.rest.rest.label]
  | _ => []

/-- The labels that an expression draws are those of its own effects and of its own chunks. -/
theorem Combines.drawnLabels_eq {item : Expression} {code : Expr} {own : List Chunk}
    (h : Combines program level id item codes labels code own rest) :
    drawnLabels labels item = (ownEffects program id labels codes item).filterMap Effect.label? ++
      own.flatMap Chunk.labels := by
  cases hi : item.isControl with
  | false =>
    rw [(label?_marks.node h).mpr hi, List.nil_append]
    cases h with
    | conditional | whileLoop | forLoop => cases hi
    | integer | logical | string | name | routine | call | operation | index | assign | unary
    | block => rfl
  | true =>
    cases h with
    | conditional | whileLoop | forLoop =>
      simp [drawnLabels, ownEffects, List.filterMap_cons, Effect.label?]
    | _ => cases hi

/-- An expression defines the labels of its operands, those that it repeats and those it draws. -/
theorem Combines.definedLabels_perm {item : Expression} {code : Expr} {own : List Chunk}
    (h : Combines program level id item codes labels code own rest) (chunks : List Chunk) :
    (definedLabels codes chunks ++ definedLabels (repeated codes item) [] ++
      drawnLabels labels item).Perm (definedLabels [code] (chunks ++ own)) := by
  refine List.perm_iff_count.mpr fun label => ?_
  have hcode := (h.filterMap_perm Effect.label?).count_eq label
  simp only [definedLabels_eq, h.drawnLabels_eq, List.flatMap_append, List.flatMap_singleton,
    List.filterMap_append, List.count_append, List.flatMap_nil, List.count_nil] at hcode ⊢
  omega

/-- Labels that are defined in an interval and drawn between two supplies: where they come from, and
when no label is defined twice. -/
structure Draws (program : Program) (first last : Nat) (labels rest : LabelSupply)
    (list : List Label) : Prop where
  /-- Labels are only taken. -/
  supply : labels.next ≤ rest.next
  /-- A label is drawn, or it is that of storage in the interval. -/
  source : ∀ label ∈ list,
    (∃ number, label = .generated number ∧ labels.next ≤ number ∧ number < rest.next) ∨
      ∃ id size, first ≤ id.index ∧ id.index < last ∧
        program.layout.accesses.get? id = some (.global size label)
  /-- No label is defined twice if and only if nothing repeated defines any. -/
  nodup : list.Nodup ↔ program.arena.Targets program.arena.Straight first last

namespace Draws

/-- Where nothing is assigned, nothing need be drawn. -/
theorem nil (ht : program.arena.Targets program.arena.Straight first last) :
    Draws program first last labels labels [] :=
  ⟨Nat.le_refl _, by simp, by simp [ht]⟩

/-- Where nothing is assigned, one label may be drawn. -/
theorem one (ht : program.arena.Targets program.arena.Straight first last) :
    Draws program first last labels labels.rest [labels.label] := by
  refine ⟨Nat.le_succ _, fun label hm => ?_, by simp [ht]⟩
  obtain rfl := List.mem_singleton.mp hm
  exact .inl ⟨labels.next, rfl, Nat.le_refl _, Nat.lt_succ_self _⟩

theorem perm (h : Draws program first last labels rest list) (hp : list.Perm list') :
    Draws program first last labels rest list' :=
  ⟨h.supply, fun label hm => h.source label (hp.mem_iff.mpr hm), hp.nodup_iff.symm.trans h.nodup⟩

/-- Storage with a label defines it. -/
theorem storage {name : String} {written : NodeId} {access : Access}
    (hk : program.arena.kind? id = some (.definition (.var name written)))
    (ha : program.layout.accesses.get? id = some access) :
    Draws program id.index (id.index + 1) labels labels
      (definedLabels [] (storageChunks access)) := by
  have ht : program.arena.Targets program.arena.Straight id.index
      (id.index + 1) := Arena.targets_of_kind hk (by simp)
  cases access with
  | inFrame | parameter => exact nil ht
  | global size label =>
    refine ⟨Nat.le_refl _, fun found hm => ?_, ?_⟩
    · obtain rfl : found = label := by
        simpa [definedLabels, storageChunks, Chunk.labels] using hm
      exact .inr ⟨id, size, Nat.le_refl _, Nat.lt_succ_self _, ha⟩
    · simp [definedLabels, storageChunks, Chunk.labels, ht]

/-- An assignment defines the labels of its target once more. -/
theorem assign {left right : NodeId}
    (hk : program.arena.kind? id = some (.expression (.binary .assign left right)))
    (hle : first ≤ id.index) (hf : Draws program first id.index labels rest list)
    (hm : ∀ label ∈ list', label ∈ list) (hs : list' = [] ↔ program.arena.Straight left) :
    Draws program first (id.index + 1) labels rest (list ++ list') := by
  have hnodup : (list ++ list').Nodup ↔ list.Nodup ∧ list' = [] := by
    rw [List.nodup_append]
    constructor
    · rintro ⟨hl, _, hd⟩
      refine ⟨hl, List.eq_nil_iff_forall_not_mem.mpr fun label h => ?_⟩
      exact hd label (hm label h) label h rfl
    · rintro ⟨hl, rfl⟩
      exact ⟨hl, .nil, by simp⟩
  refine ⟨hf.supply, fun label h => ?_, ?_⟩
  · have hlist : label ∈ list := (List.mem_append.mp h).elim (fun h => h) (hm label)
    rcases hf.source label hlist with hg | ⟨other, size, hfirst, hlast, ha⟩
    · exact .inl hg
    · exact .inr ⟨other, size, hfirst, by omega, ha⟩
  · rw [hnodup, hf.nodup, hs, Arena.targets_append_iff hle (Nat.le_succ _),
      Arena.targets_assign_iff hk]

section Compiled

variable {compilation : Compilation} {root : NodeId} {members : List NodeId}
  {before behind : LabelSupply} (hcompiled : Compiled compilation root members before behind)

include hcompiled

/-- Labels that are drawn one behind the other in two intervals differ. -/
theorem disjoint {start stop : Nat} (hi : middle ≤ start ∨ stop ≤ first)
    (hf : Draws compilation.program first middle labels₁ labels₂ list)
    (hs : Draws compilation.program start stop labels₂ labels₃ list') :
    ∀ label ∈ list, ∀ label' ∈ list', label ≠ label' := by
  rintro label hm _ hm' rfl
  rcases hf.source label hm with ⟨number, he, _, hlt⟩ | ⟨id, size, hfirst, hmiddle, ha⟩
  · rcases hs.source label hm' with ⟨number', he', hle, _⟩ | ⟨_, _, _, _, ha'⟩
    · cases he.symm.trans he'
      omega
    · obtain ⟨name, hn⟩ := hcompiled.named ha'
      cases he.symm.trans hn
  · rcases hs.source label hm' with ⟨number', he', _, _⟩ | ⟨other, _, hstart, hstop, ha'⟩
    · obtain ⟨name, hn⟩ := hcompiled.named ha
      cases he'.symm.trans hn
    · obtain rfl := hcompiled.access_unique ha ha'
      omega

/-- Two intervals that do not meet draw their labels one behind the other. -/
theorem join {start stop start' stop' : Nat} (hi : stop ≤ start' ∨ stop' ≤ start)
    (hin : first ≤ start ∧ stop ≤ last ∧ first ≤ start' ∧ stop' ≤ last)
    (ht : ∀ fits, compilation.program.arena.Targets fits first last ↔
      compilation.program.arena.Targets fits start stop ∧
        compilation.program.arena.Targets fits start' stop')
    (hf : Draws compilation.program start stop labels₁ labels₂ list)
    (hs : Draws compilation.program start' stop' labels₂ labels₃ list') :
    Draws compilation.program first last labels₁ labels₃ (list ++ list') := by
  have hd := disjoint hcompiled hi hf hs
  have hsupply := hf.supply
  have hsupply' := hs.supply
  refine ⟨by omega, fun label hm => ?_, ?_⟩
  · rcases List.mem_append.mp hm with hm | hm
    · rcases hf.source label hm with ⟨number, he, hle, hlt⟩ | ⟨id, size, hstart, hstop, ha⟩
      · exact .inl ⟨number, he, by omega, by omega⟩
      · exact .inr ⟨id, size, by omega, by omega, ha⟩
    · rcases hs.source label hm with ⟨number, he, hle, hlt⟩ | ⟨id, size, hstart, hstop, ha⟩
      · exact .inl ⟨number, he, by omega, by omega⟩
      · exact .inr ⟨id, size, by omega, by omega, ha⟩
  · rw [List.nodup_append, ht, hf.nodup, hs.nodup]
    exact ⟨fun h => ⟨h.1, h.2.1⟩, fun h => ⟨h.1, h.2, hd⟩⟩

/-- Neighbouring intervals draw their labels one behind the other. -/
theorem append (hl : first ≤ middle) (hr : middle ≤ last)
    (hf : Draws compilation.program first middle labels₁ labels₂ list)
    (hs : Draws compilation.program middle last labels₂ labels₃ list') :
    Draws compilation.program first last labels₁ labels₃ (list ++ list') :=
  join hcompiled (.inl (Nat.le_refl _)) ⟨Nat.le_refl _, hr, hl, Nat.le_refl _⟩
    (fun _ => Arena.targets_append_iff hl hr) hf hs

/-- Neighbouring intervals draw their labels one behind the other, the second one first. -/
theorem append_back (hl : first ≤ middle) (hr : middle ≤ last)
    (hf : Draws compilation.program middle last labels₁ labels₂ list)
    (hs : Draws compilation.program first middle labels₂ labels₃ list') :
    Draws compilation.program first last labels₁ labels₃ (list ++ list') :=
  join hcompiled (.inr (Nat.le_refl _)) ⟨hl, Nat.le_refl _, Nat.le_refl _, hr⟩
    (fun _ => (Arena.targets_append_iff hl hr).trans and_comm) hf hs

/-- A node that is no assignment draws its labels behind those of its operands. -/
theorem node {item : Expression} {code : Expr} {own : List Chunk}
    (hk : compilation.program.arena.kind? id = some (.expression item))
    (hn : ∀ left right, item ≠ .binary .assign left right)
    (h : Combines compilation.program level id item codes labels code own rest) :
    Draws compilation.program id.index (id.index + 1) labels rest (drawnLabels labels item) := by
  have ht : compilation.program.arena.Targets compilation.program.arena.Straight id.index
      (id.index + 1) := Arena.targets_of_kind hk (by simpa using hn)
  have hrefl : compilation.program.arena.Targets compilation.program.arena.Straight id.index
      id.index := Arena.targets_refl
  have hle := Nat.le_refl id.index
  have hnext := Nat.le_succ id.index
  cases h with
  | @assign left right => exact absurd rfl (hn left right)
  | string => exact one ht
  | conditional => exact append hcompiled hle hnext (one hrefl) (one ht)
  | whileLoop | forLoop =>
    exact append hcompiled hle hnext (one hrefl) (append hcompiled hle hnext (one hrefl) (one ht))
  | @operation operator _ _ _ _ _ _ ho => cases operator <;> exact nil ht
  | integer | logical | name | routine | call | index | unary | block => exact nil ht

end Compiled

end Draws

/-- The labels of a compiled program are drawn interval by interval. -/
def drawsTally {compilation : Compilation} {root : NodeId} {members : List NodeId}
    {before behind : LabelSupply} (hcompiled : Compiled compilation root members before behind) :
    Tally compilation.program where
  holds first last labels codes chunks rest :=
    Draws compilation.program first last labels rest (definedLabels codes chunks)
  silent _ hs := .nil hs.targets
  append hl hr hf hs := (Draws.append hcompiled hl hr hf hs).perm (definedLabels_append _ _ _ _)
  append_back hl hr hf hs :=
    (Draws.append_back hcompiled hl hr hf hs).perm (definedLabels_append _ _ _ _)
  node {first level labels₁ labels₂ labels₃ id item codes code chunks own} hk hf hl hc hd := by
    by_cases hassign : ∃ left right, item = .binary .assign left right
    · obtain ⟨left, right, rfl⟩ := hassign
      have hperm := hc.definedLabels_perm chunks
      cases hc with
      | operation ho => cases ho
      | @assign _ _ leftCode rightCode _ =>
        have hstraight : definedLabels [leftCode] [] = [] ↔
            compilation.program.arena.Straight left := by
          cases hl with
          | expressions hleft _ =>
            simpa [definedLabels_eq, Task.ids, Arena.Straight, Arena.isControl] using
              hleft.effects_eq_nil_iff label?_marks hcompiled.prepared.tree
        have hrepeated : ∀ label ∈ definedLabels [leftCode] [],
            label ∈ definedLabels [leftCode, rightCode] chunks := by
          intro label hm
          simp only [definedLabels, List.flatMap_cons, List.flatMap_nil, List.append_nil] at hm
          simp [definedLabels, hm]
        refine (Draws.assign hk hf.le hd hrepeated hstraight).perm ?_
        simpa [repeated, drawnLabels] using hperm
    · have hn : ∀ left right, item ≠ .binary .assign left right :=
        fun left right he => hassign ⟨left, right, he⟩
      have hperm := hc.definedLabels_perm chunks
      have hnothing : definedLabels (repeated codes item) [] = [] := by
        rw [definedLabels_eq, hl.effects_repeated hf hn]
        rfl
      rw [hnothing, List.append_nil] at hperm
      exact (Draws.append hcompiled hf.le (Nat.le_succ _) hd (.node hcompiled hk hn hc)).perm hperm
  choice {first middle labels₁ labels₂ labels₃ id condition thenBranch elseBranch test thenCode
      elseCode chunks chunks'} hk hl hr hf he := by
    have ht : compilation.program.arena.Targets compilation.program.arena.Straight id.index
        (id.index + 1) := Arena.targets_of_kind hk (by simp)
    have hle := Nat.le_refl middle
    have hthen := Draws.append hcompiled hl hle hf (.one Arena.targets_refl)
    have hend := Draws.append hcompiled hl hle hthen (.one Arena.targets_refl)
    have helse := Draws.append hcompiled hl hr hend he
    exact (Draws.append hcompiled (by omega) (Nat.le_succ _) helse (.one ht)).perm
      (definedLabels_choice labels₂ labels₃ test thenCode elseCode chunks chunks')
  function {first labels₁ labels₂ id name parameters result body frame value chunks} hk _ hle _
      hd := by
    have ht : compilation.program.arena.Targets compilation.program.arena.Straight id.index
        (id.index + 1) := Arena.targets_of_kind hk (by simp)
    have hvalue := Draws.append hcompiled hle (Nat.le_succ _) hd (.nil ht)
    rw [List.append_nil] at hvalue
    exact hvalue.perm (definedLabels_function frame value chunks)
  storage hk ha := .storage hk ha

end Lowering

/-- The labels that a compilation defines: those of its functions, and those of its chunks. -/
def Compilation.labels (compilation : Compilation) : List Label :=
  compilation.program.layout.frames.entries.map (fun entry => entry.2.label) ++
    compilation.chunks.toList.flatMap Chunk.labels

namespace Compilation

variable {compilation : Compilation} {file source : String}

/-- Each function has a label of its own. -/
theorem nodup_frame_labels {root : NodeId} {members : List NodeId} {labels rest : LabelSupply}
    (h : Compiled compilation root members labels rest) :
    (compilation.program.layout.frames.entries.map fun entry => entry.2.label).Nodup := by
  rw [List.Nodup, List.pairwise_map]
  refine (NodeTable.pairwise_entries _).imp_of_mem fun {entry entry'} hm hm' hn he => hn ?_
  have hf := (NodeTable.mem_entries_iff _ entry.1 entry.2).mp hm
  have hf' := (NodeTable.mem_entries_iff _ entry'.1 entry'.2).mp hm'
  exact h.frame_unique hf hf' he

/-- No label is defined twice in a compilation if and only if no choice and no loop is computed with
the target of an assignment. -/
theorem labels_nodup_iff (h : ofSource file source = .ok compilation) :
    compilation.labels.Nodup ↔ ∀ id target, compilation.program.arena.Assigns id target →
      compilation.program.arena.Straight target := by
  obtain ⟨root, members, labels, rest, hc⟩ := ofSource_compiled h
  have hdraws : Lowering.Draws compilation.program 0 root.index labels rest
      (compilation.chunks.toList.flatMap Chunk.labels) :=
    (Lowering.drawsTally hc).holds_of_lowers hc.lowers hc.stands
  have hdisjoint : ∀ label ∈ compilation.program.layout.frames.entries.map
      (fun entry => entry.2.label), ∀ label' ∈ compilation.chunks.toList.flatMap Chunk.labels,
      label ≠ label' := by
    intro label hm label' hm' he
    obtain ⟨entry, hentry, rfl⟩ := List.mem_map.mp hm
    have hf := (NodeTable.mem_entries_iff _ entry.1 entry.2).mp hentry
    rcases hdraws.source label' hm' with ⟨number, hg, hle, _⟩ | ⟨id, size, _, _, ha⟩
    · rcases hc.labelled.frame hf with ⟨_, _, _, hn⟩ | ⟨number', hlt, hg'⟩
      · cases hn.symm.trans (he.trans hg)
      · cases hg'.symm.trans (he.trans hg)
        omega
    · exact hc.frame_ne_access hf ha he
  rw [Compilation.labels, List.nodup_append, hdraws.nodup, hc.targets_iff]
  exact ⟨fun h => h.2.1, fun h => ⟨nodup_frame_labels hc, h, hdisjoint⟩⟩

/-- In a program whose loops stand beside the targets of assignments, and not in them. -/
theorem labels_nodup_iff_of_loop :
    ∃ compilation, ofSource "test"
        "fun f(n: integer): integer = (\x7bwhile n < 3: \x7bn = n + 1\x7d\x7d, n)" =
          .ok compilation ∧
      ∀ id target, compilation.program.arena.Assigns id target →
        compilation.program.arena.Straight target := by
  obtain ⟨compilation, h, hn⟩ : ∃ compilation, ofSource "test"
        "fun f(n: integer): integer = (\x7bwhile n < 3: \x7bn = n + 1\x7d\x7d, n)" =
          .ok compilation ∧ compilation.labels.Nodup := exists_of_any (by decide +kernel)
  exact ⟨compilation, h, (labels_nodup_iff h).mp hn⟩

/-- A choice in the index of an assigned element has its labels defined twice. -/
theorem labels_repeated_by_target :
    ∃ compilation, ofSource "test"
        "fun f(a: arr[1] integer): integer = \x7ba[(\x7bif true then 1\x7d, 0)] = 2\x7d" =
          .ok compilation ∧ ¬ compilation.labels.Nodup :=
  exists_of_any (by decide +kernel)

end Compilation

end Pins
