import Pins.Proofs.Closed
import Pins.Proofs.LabelCount
import Pins.Proofs.Numbers

/-!
# Labels and their written forms

Two labels may have one written form only if one of them is a name and the other one was generated.
The frame and the stack pointer cannot be written by a program, and no routine has a name that looks
like a generated label. Functions and variables outside all functions may, and then a compilation
mentions two labels that cannot be told apart when they are written
(`Compilation.label_texts_distinct_iff`).

That this is all comes from knowing which labels a compilation mentions: the generated ones are all
those that were taken (`Compiled.generated_mem_mentions`), and the names are those of definitions
outside all functions and of the runtime (`Compiled.known`).
-/

namespace Pins

namespace Label

/-- Generated labels are written apart. -/
theorem text_generated_inj {number number' : Nat}
    (h : (generated number).text = (generated number').text) : number = number' :=
  Text.repr_inj ((String.append_right_inj "L").mp h)

/-- The written form of a generated label begins with a letter of its own. -/
theorem head?_text_generated (number : Nat) : (generated number).text.toList.head? = some 'L' := by
  simp [text]

end Label

namespace Ir

variable {α : Type} {pick : Tree → Option α} {all : List Tree}

/-- The labels that a node of code mentions. -/
def Tree.mentions : Tree → List Label
  | .expr (.name label) | .expr (.call label _) | .stmt (.label label) | .stmt (.jump label) =>
    [label]
  | .stmt (.cjump _ thenTarget elseTarget) => [thenTarget, elseTarget]
  | _ => []

/-- The jumps of a node go to labels that stand among some nodes. -/
def Tree.Lands (all : List Tree) : Tree → Prop
  | .stmt (.jump target) => .stmt (.label target) ∈ all
  | .stmt (.cjump _ thenTarget elseTarget) =>
    .stmt (.label thenTarget) ∈ all ∧ .stmt (.label elseTarget) ∈ all
  | _ => True

/-- What is picked in an expression is picked at its nodes. -/
theorem Expr.collect_eq_nodes (code : Expr) : code.collect pick = code.nodes.filterMap pick := by
  have hbind : code.collect (fun tree => (some tree).bind pick) =
      (code.collect some).filterMap pick := code.collect_bind pick
  exact hbind

/-- What is picked in a statement is picked at its nodes. -/
theorem Stmt.collect_eq_nodes (code : Stmt) : code.collect pick = code.nodes.filterMap pick := by
  have hbind : code.collect (fun tree => (some tree).bind pick) =
      (code.collect some).filterMap pick := code.collect_bind pick
  exact hbind

mutual

/-- In a closed expression jumps go to labels of it. -/
theorem Expr.lands : ∀ code : Expr, code.Closed → code.nodes ⊆ all →
    ∀ tree ∈ code.nodes, tree.Lands all
  | .constant _, _, _ | .name _, _, _ => by simp [Tree.Lands]
  | .memory address, h, hsub => by
    simp only [nodes_memory, List.cons_subset, List.forall_mem_cons] at hsub ⊢
    exact ⟨trivial, address.lands h hsub.2⟩
  | .binop _ left right, h, hsub => by
    simp only [nodes_binop, List.cons_subset, List.append_subset, List.forall_mem_cons,
      List.forall_mem_append] at hsub ⊢
    exact ⟨trivial, left.lands h.1 hsub.2.1, right.lands h.2 hsub.2.2⟩
  | .call _ arguments, h, hsub => by
    simp only [nodes_call, List.cons_subset, List.forall_mem_cons] at hsub ⊢
    exact ⟨trivial, Expr.lands_all arguments h hsub.2⟩
  | .eseq statement value, h, hsub => by
    simp only [nodes_eseq, List.cons_subset, List.append_subset, List.forall_mem_cons,
      List.forall_mem_append] at hsub ⊢
    exact ⟨trivial, statement.lands h.1 (fun _ hm => nomatch hm) hsub.2.1, value.lands h.2 hsub.2.2⟩

/-- In a statement that is closed in a list jumps go to labels of it and of the list. -/
theorem Stmt.lands : ∀ (code : Stmt) {scope : List Stmt}, code.ClosedIn scope →
    (∀ label, .label label ∈ scope → .stmt (.label label) ∈ all) → code.nodes ⊆ all →
    ∀ tree ∈ code.nodes, tree.Lands all
  | .move destination source, _, h, _, hsub => by
    simp only [nodes_move, List.cons_subset, List.append_subset, List.forall_mem_cons,
      List.forall_mem_append] at hsub ⊢
    exact ⟨trivial, destination.lands h.1 hsub.2.1, source.lands h.2 hsub.2.2⟩
  | .exp value, _, h, _, hsub => by
    simp only [nodes_exp, List.cons_subset, List.forall_mem_cons] at hsub ⊢
    exact ⟨trivial, value.lands h hsub.2⟩
  | .seq statements, _, h, _, hsub => by
    simp only [nodes_seq, List.cons_subset, List.forall_mem_cons] at hsub ⊢
    -- the labels of the list itself are among the nodes
    have hlabels : ∀ label, .label label ∈ statements → .stmt (.label label) ∈ all :=
      fun label hm => hsub.2 (List.mem_flatMap.mpr ⟨_, hm, by simp⟩)
    exact ⟨trivial, Stmt.lands_all statements h hlabels hsub.2⟩
  | .label _, _, _, _, _ => by simp [Tree.Lands]
  | .jump target, _, h, hscope, _ => by simpa [Tree.Lands] using hscope target h
  | .cjump condition thenTarget elseTarget, _, h, hscope, hsub => by
    simp only [nodes_cjump, List.cons_subset, List.forall_mem_cons] at hsub ⊢
    exact ⟨⟨hscope thenTarget h.2.1, hscope elseTarget h.2.2⟩, condition.lands h.1 hsub.2⟩

theorem Expr.lands_all : ∀ codes : List Expr, Expr.AllClosed codes →
    codes.flatMap Expr.nodes ⊆ all → ∀ tree ∈ codes.flatMap Expr.nodes, tree.Lands all
  | [], _, _ => by simp
  | code :: codes, h, hsub => by
    simp only [List.flatMap_cons, List.append_subset, List.forall_mem_append] at hsub ⊢
    exact ⟨code.lands h.1 hsub.1, Expr.lands_all codes h.2 hsub.2⟩

theorem Stmt.lands_all : ∀ (codes : List Stmt) {scope : List Stmt},
    Stmt.AllClosedIn scope codes →
    (∀ label, .label label ∈ scope → .stmt (.label label) ∈ all) →
    codes.flatMap Stmt.nodes ⊆ all → ∀ tree ∈ codes.flatMap Stmt.nodes, tree.Lands all
  | [], _, _, _, _ => by simp
  | code :: codes, _, h, hscope, hsub => by
    simp only [List.flatMap_cons, List.append_subset, List.forall_mem_append] at hsub ⊢
    exact ⟨code.lands h.1 hscope hsub.1, Stmt.lands_all codes h.2 hscope hsub.2⟩

end

end Ir

/-- The labels that a chunk mentions. -/
def Chunk.mentions : Chunk → List Label
  | code frame body => frame.label :: body.nodes.flatMap Ir.Tree.mentions
  | data access _ | global access => access.label?.toList

/-- A chunk mentions its label. -/
theorem Chunk.mem_mentions_of_label? {chunk : Chunk} {label : Label}
    (h : chunk.label? = some label) : label ∈ chunk.mentions := by
  cases chunk with
  | code => cases h; exact List.mem_cons_self
  | data access | global access => simpa [mentions, label?] using h

/-- A chunk mentions the labels that it defines. -/
theorem Chunk.mem_mentions_of_labels {chunk : Chunk} {label : Label}
    (h : label ∈ chunk.labels) : label ∈ chunk.mentions := by
  cases chunk with
  | code frame body =>
    rw [labels, Ir.Stmt.collect_eq_nodes] at h
    obtain ⟨tree, ht, hl⟩ := List.mem_filterMap.mp h
    refine List.mem_cons_of_mem _ (List.mem_flatMap.mpr ⟨tree, ht, ?_⟩)
    rcases tree with item | item <;> cases item <;> cases hl
    exact List.mem_singleton_self _
  | data access | global access => cases access <;> simp_all [labels, mentions, Access.label?]

/-- The labels that a compilation mentions. -/
def Compilation.mentions (compilation : Compilation) : List Label :=
  compilation.chunks.toList.flatMap Chunk.mentions

/-- A name is that of a function or a variable outside all functions. -/
def Arena.Exports (arena : Arena) (name : String) : Prop :=
  ∃ id definition, arena.Encloses none id ∧ arena.definition? id = some definition ∧
    definition.name = name ∧ (definition.kind = .function ∨ definition.kind = .var)

/-- A name is that of a pointer or a routine of the runtime. -/
def IsReserved (name : String) : Prop :=
  name = "\x7bFP\x7d" ∨ name = "\x7bSP\x7d" ∨ Builtin.isRoutine name = true

/-- A label of a program is a generated one, below the next, or a name of the program or of the
runtime. -/
inductive Known (arena : Arena) (next : Nat) : Label → Prop where
  | generated {number : Nat} (h : number < next) : Known arena next (.generated number)
  | exported {name : String} (h : arena.Exports name) : Known arena next (.named name)
  | reserved {name : String} (h : IsReserved name) : Known arena next (.named name)

/-- No routine has a name that begins like a generated label. -/
theorem Builtin.head?_ne_of_mem_routines :
    ∀ routine ∈ routines, routine.1.toList.head? ≠ some 'L' := by decide

/-- No name of the runtime is the written form of a generated label. -/
theorem IsReserved.ne_text {name : String} (h : IsReserved name) (number : Nat) :
    name ≠ (Label.generated number).text := by
  have hhead : name.toList.head? ≠ some 'L' := by
    rcases h with rfl | rfl | hroutine
    · decide
    · decide
    · obtain ⟨routine, hl⟩ := Option.isSome_iff_exists.mp hroutine
      obtain ⟨before, behind, he, _⟩ := List.lookup_eq_some_iff.mp hl
      exact Builtin.head?_ne_of_mem_routines (name, routine) (by simp [he])
  rintro rfl
  exact hhead (Label.head?_text_generated number)

namespace Lowering

open Ir (Effect Expr Tree)

variable {program : Program} {level : Nat} {id : NodeId} {task : Task}
  {item : Expression} {labels rest : LabelSupply} {codes : List Expr} {code : Expr}
  {chunks own : List Chunk} {label : Label}

/-- What an expression draws is generated. -/
theorem generated_of_mem_drawnLabels (h : label ∈ drawnLabels labels item) :
    ∃ number, label = .generated number := by
  unfold drawnLabels at h
  split at h
  all_goals simp only [List.mem_cons, List.not_mem_nil, or_false] at h
  · exact ⟨_, h⟩
  · rcases h with h | h <;> exact ⟨_, h⟩
  · rcases h with h | h | h <;> exact ⟨_, h⟩
  · rcases h with h | h | h <;> exact ⟨_, h⟩

/-- All labels that code defines are generated. -/
def AllGenerated (code : Expr) : Prop :=
  ∀ label ∈ code.effects.filterMap Effect.label?, ∃ number, label = .generated number

/-- The labels that lowered code defines are generated. -/
theorem Lowers.generated (h : Lowers program level labels task codes chunks rest) :
    (∀ code ∈ codes, AllGenerated code) ∧ AllLeave AllGenerated chunks := by
  refine h.forall_codes (fun {level id item codes labels₁ labels code chunks own rest} _ _ hc _
      hcodes label hm => ?_)
    (fun {labels rest test thenCode elseCode} ht hthen he label hm => ?_) (List.Subset.refl _)
  · rw [(hc.filterMap_perm Effect.label?).mem_iff, List.mem_append] at hm
    rcases hm with hm | hm
    · rw [List.filterMap_flatMap] at hm
      obtain ⟨part, hpart, hl⟩ := List.mem_flatMap.mp hm
      have hcode : part ∈ codes := (List.mem_append.mp hpart).elim (fun h => h) mem_of_mem_repeated
      exact hcodes part hcode label hl
    · exact generated_of_mem_drawnLabels (hc.drawnLabels_eq ▸ List.mem_append_left _ hm)
  · rw [(choiceCode_filterMap_perm labels rest test thenCode elseCode Effect.label?).mem_iff,
      List.mem_append] at hm
    rcases hm with hm | hm
    · simp only [List.flatMap_cons, List.flatMap_nil, List.append_nil, List.filterMap_append,
        List.mem_append] at hm
      exact hm.elim (ht label) fun hm => hm.elim (hthen label) (he label)
    · simp only [choiceEffects, Effect.label?, List.filterMap_cons, List.filterMap_nil,
        List.mem_cons, List.not_mem_nil, or_false] at hm
      rcases hm with hm | hm | hm <;> exact ⟨_, hm⟩

end Lowering

namespace Compiled

variable {compilation : Compilation} {root : NodeId} {members : List NodeId}
  {labels rest : LabelSupply} {chunk : Chunk} {label : Label}

/-- Where lowering began, at most as many labels were taken as are in the end. -/
theorem next_le (h : Compiled compilation root members labels rest) : labels.next ≤ rest.next := by
  have hcount := h.taken.count
  omega

/-- What a chunk mentions, the compilation does. -/
theorem mem_mentions (hm : chunk ∈ compilation.chunks.toList) (hl : label ∈ chunk.mentions) :
    label ∈ compilation.mentions :=
  List.mem_flatMap.mpr ⟨chunk, hm, hl⟩

/-- Every generated label that was taken is mentioned. -/
theorem generated_mem_mentions (h : Compiled compilation root members labels rest) {number : Nat}
    (hlt : number < rest.next) : .generated number ∈ compilation.mentions := by
  rcases Nat.lt_or_ge number labels.next with hbefore | hbehind
  · obtain ⟨id, frame, hf, hl⟩ := h.drawn number hbefore
    obtain ⟨code, hm, _⟩ := h.exists_code hf
    exact mem_mentions hm (Chunk.mem_mentions_of_label? (congrArg some hl))
  · have hdefined := h.taken.defined number hbehind hlt
    rw [Lowering.definedLabels, List.flatMap_nil, List.nil_append] at hdefined
    obtain ⟨chunk, hm, hl⟩ := List.mem_flatMap.mp hdefined
    exact mem_mentions hm (Chunk.mem_mentions_of_labels hl)

/-- The label of a chunk is known. -/
theorem known_of_label? (h : Compiled compilation root members labels rest)
    (hm : chunk ∈ compilation.chunks.toList) (hl : chunk.label? = some label) :
    Known compilation.program.arena rest.next label := by
  cases label with
  | named name => exact .exported (h.exists_of_label hm hl)
  | generated number =>
    have hle := h.next_le
    refine .generated ?_
    cases chunk with
    | code frame body =>
      obtain ⟨id, hf, _⟩ := h.codesOf.sound frame body hm
      have hlt := h.lt_of_holds (.inl ⟨frame, hf, Option.some.inj hl⟩)
      omega
    | data access value =>
      cases access with
      | inFrame | parameter => cases hl
      | global size label =>
        cases hl
        exact (h.numbered.range number (List.mem_filterMap.mpr ⟨_, hm, rfl⟩)).2
    | global access =>
      obtain ⟨id, _, ha⟩ := h.storagesOf.sound access hm
      cases access with
      | inFrame | parameter => cases hl
      | global size label =>
        cases hl
        have hlt := h.lt_of_holds (.inr ⟨size, ha⟩)
        omega

section Code

variable {frame : Frame} {body : Ir.Stmt} {tree : Ir.Tree}

/-- A label that code defines is known, as it is generated. -/
theorem known_of_defined (h : Compiled compilation root members labels rest)
    (hm : Chunk.code frame body ∈ compilation.chunks.toList)
    (hl : .stmt (.label label) ∈ body.nodes) :
    Known compilation.program.arena rest.next label := by
  have hbody : label ∈ body.collect Ir.Tree.label? := by
    rw [Ir.Stmt.collect_eq_nodes]
    exact List.mem_filterMap.mpr ⟨_, hl, rfl⟩
  obtain ⟨_, _, _, _, _, _, value, _, rfl, _⟩ := h.codesOf.sound frame body hm
  have hvalue : label ∈ value.effects.filterMap Ir.Effect.label? := by
    rw [← Ir.Expr.collect_eq_filterMap Ir.Tree.label?_eq_bind]
    simpa [Ir.Stmt.collect, Ir.Expr.collect, Ir.Tree.label?, Ir.framePointer] using hbody
  obtain ⟨number, rfl⟩ := h.lowers.generated.2 frame value hm label hvalue
  have hdefined : .generated number ∈ Lowering.definedLabels [] compilation.chunks.toList := by
    rw [Lowering.definedLabels, List.flatMap_nil, List.nil_append]
    exact List.mem_flatMap.mpr ⟨_, hm, hbody⟩
  have hdraws := (Lowering.drawsTally h).holds_of_lowers h.lowers h.stands
  -- storage has a name for a label, so the label was drawn
  rcases hdraws.source _ hdefined with ⟨drawn, he, _, hlt⟩ | ⟨_, _, _, _, ha⟩
  · cases he
    exact .generated hlt
  · obtain ⟨name, hn⟩ := h.named ha
    cases hn

/-- What a node of code mentions is known. -/
theorem known_of_node (h : Compiled compilation root members labels rest)
    (hm : Chunk.code frame body ∈ compilation.chunks.toList) (ht : tree ∈ body.nodes)
    (hl : label ∈ tree.mentions) : Known compilation.program.arena rest.next label := by
  obtain ⟨hclosed, hfinds⟩ := h.closed hm
  have hfound : compilation.Finds tree := hfinds tree ht
  have hlands : tree.Lands body.nodes :=
    body.lands hclosed (fun _ hm => nomatch hm) (List.Subset.refl _) tree ht
  rcases tree with item | item <;> cases item
  case expr.name found =>
    cases List.mem_singleton.mp hl
    rcases hfound with hframe | hstack | ⟨chunk, _, hf⟩
    · cases hframe
      exact .reserved (.inl rfl)
    · cases hstack
      exact .reserved (.inr (.inl rfl))
    · exact h.known_of_label? (mem_of_filter_eq hf).1 (mem_of_filter_eq hf).2
  case expr.call found codes =>
    cases List.mem_singleton.mp hl
    obtain ⟨_, callee, _, _, hmeant⟩ := hfound
    rcases hmeant with ⟨hr, rfl, _⟩ | ⟨_, function, _, hanswers⟩
    · exact .reserved (.inr (.inr hr))
    · obtain ⟨chunk, hf⟩ := hanswers.exists_chunk
      exact h.known_of_label? (mem_of_filter_eq hf).1 (mem_of_filter_eq hf).2
  case stmt.label found =>
    cases List.mem_singleton.mp hl
    exact h.known_of_defined hm ht
  case stmt.jump target =>
    cases List.mem_singleton.mp hl
    exact h.known_of_defined hm hlands
  case stmt.cjump condition thenTarget elseTarget =>
    rcases List.mem_pair.mp hl with rfl | rfl
    · exact h.known_of_defined hm hlands.1
    · exact h.known_of_defined hm hlands.2
  all_goals cases hl

end Code

/-- Whatever a compilation mentions is known. -/
theorem known (h : Compiled compilation root members labels rest)
    (hl : label ∈ compilation.mentions) : Known compilation.program.arena rest.next label := by
  obtain ⟨chunk, hm, hl⟩ := List.mem_flatMap.mp hl
  cases chunk with
  | data access | global access =>
    exact h.known_of_label? hm (by simpa [Chunk.mentions, Chunk.label?] using hl)
  | code frame body =>
    rcases List.mem_cons.mp hl with rfl | hl
    · exact h.known_of_label? hm rfl
    · obtain ⟨tree, ht, hl⟩ := List.mem_flatMap.mp hl
      exact h.known_of_node hm ht hl

/-- A generated label that is mentioned was taken. -/
theorem lt_of_mem_mentions (h : Compiled compilation root members labels rest) {number : Nat}
    (hm : .generated number ∈ compilation.mentions) : number < rest.next := by
  cases h.known hm with
  | generated hlt => exact hlt

end Compiled

namespace Compilation

variable {compilation : Compilation} {file source : String}

/-- Labels that a compilation mentions are written apart if and only if no function and no variable
outside all functions has a name that is the written form of a label that was generated. The labels
that are generated have the numbers from zero on, as many as the tree of the program says. -/
theorem label_texts_distinct_iff (h : ofSource file source = .ok compilation) :
    (∀ label ∈ compilation.mentions, ∀ other ∈ compilation.mentions,
        label.text = other.text → label = other) ↔
      ∀ number < compilation.program.arena.labelCount,
        ¬compilation.program.arena.Exports ("L" ++ toString number) := by
  obtain ⟨root, members, labels, rest, hc⟩ := ofSource_compiled h
  have htiled : ∀ {id frame}, compilation.program.layout.frames.get? id = some frame →
      Layout.Tiled compilation.program.arena compilation.program.types
        compilation.program.layout.accesses id frame := fun hf => ofSource_tiled h hf
  rw [← hc.next_rest htiled]
  constructor
  · intro hdistinct number hlt hexports
    obtain ⟨id, definition, he, hd, hn, hkind⟩ := hexports
    obtain ⟨chunk, hm, hl⟩ := hc.exists_chunk htiled he hd hkind
    have hnamed : Label.named definition.name ∈ compilation.mentions :=
      Compiled.mem_mentions hm (Chunk.mem_mentions_of_label? hl)
    cases hdistinct _ hnamed _ (hc.generated_mem_mentions hlt) hn
  · intro hnone
    have happart : ∀ number < rest.next, ∀ name, .named name ∈ compilation.mentions →
        name ≠ (Label.generated number).text := by
      intro number hlt name hm
      cases hc.known hm with
      | exported hexports =>
        rintro rfl
        exact hnone number hlt hexports
      | reserved hreserved => exact hreserved.ne_text number
    intro label hm other ho he
    cases label with
    | named name =>
      cases other with
      | named name' => exact congrArg Label.named he
      | generated number => exact absurd he (happart number (hc.lt_of_mem_mentions ho) name hm)
    | generated number =>
      cases other with
      | named name => exact absurd he.symm (happart number (hc.lt_of_mem_mentions hm) name ho)
      | generated number' => exact congrArg Label.generated (Label.text_generated_inj he)

/-- One label is generated, so its number is zero, and a function may be called after the next. -/
theorem label_texts_distinct_of_next :
    ∃ compilation, ofSource "test"
        "fun L1(): integer = f() \x7bwhere fun f(): integer = 1\x7d" = .ok compilation ∧
      compilation.program.arena.labelCount = 1 ∧
      (compilation.program.arena.definition? ⟨7⟩).map Definition.name = some "L1" ∧
      ¬compilation.program.arena.Exports ("L" ++ toString 0) := by
  obtain ⟨compilation, h, hcount, hname, hdistinct⟩ : ∃ compilation, ofSource "test"
        "fun L1(): integer = f() \x7bwhere fun f(): integer = 1\x7d" = .ok compilation ∧
      compilation.program.arena.labelCount = 1 ∧
      (compilation.program.arena.definition? ⟨7⟩).map Definition.name = some "L1" ∧
      ∀ label ∈ compilation.mentions, ∀ other ∈ compilation.mentions,
        label.text = other.text → label = other :=
    exists_of_any (by decide +kernel)
  have hnone := (label_texts_distinct_iff h).mp hdistinct 0 (by rw [hcount]; decide)
  exact ⟨compilation, h, hcount, hname, hnone⟩

/-- A function outside all others and one that stands in it have labels that are written alike. -/
theorem label_texts_alike_of_first :
    ∃ compilation, ofSource "test"
        "fun L0(): integer = f() \x7bwhere fun f(): integer = 1\x7d" = .ok compilation ∧
      ∃ label ∈ compilation.mentions, ∃ other ∈ compilation.mentions,
        label ≠ other ∧ label.text = other.text :=
  exists_of_any (by decide +kernel)

end Compilation

end Pins
