import Pins.Proofs.BoundAlike
import Pins.Proofs.Inventory
import Pins.Proofs.LaidOutAlike
import Pins.Proofs.LoweredAlike
import Pins.Proofs.TypedAlike

/-!
# Renaming a definition

A definition may get a new name, together with all that is bound to it (`Arena.renamed`), without
changing what its program is compiled to (`Compilation.renaming_harmless`). Only definitions outside
all functions that have their name for a label are to keep it. The new name must not occur in the
program and must not be one of a routine; it then tells definitions apart as the old one did,
whatever it shadowed.
-/

namespace Pins

namespace Arena

variable {σ : Type} {arena : Arena} {bindings : NodeTable NodeId} {target id other : NodeId}
  {name : String} {item : Definition} {kind : NodeKind}

/-- The node is a definition, or it is bound to it. -/
def Refers (bindings : NodeTable NodeId) (target id : NodeId) : Prop :=
  id = target ∨ bindings.get? id = some target

instance (bindings : NodeTable NodeId) (target id : NodeId) :
    Decidable (Refers bindings target id) :=
  inferInstanceAs (Decidable (_ ∨ _))

/-- The arena with another name for a definition and for all that is bound to it. -/
def renamed (arena : Arena) (bindings : NodeTable NodeId) (target : NodeId) (name : String) :
    Arena :=
  { arena with
    nodes := arena.nodes.mapIdx fun index node =>
      if Refers bindings target ⟨index⟩ then { node with kind := node.kind.named name } else node }

/-- The name of a node behind the change. -/
def newName (arena : Arena) (bindings : NodeTable NodeId) (target : NodeId) (name : String)
    (id : NodeId) : String :=
  if Refers bindings target id then name else arena.word id

/-- A name does not occur in a program, and no routine has it. -/
structure Unused (arena : Arena) (name : String) : Prop where
  /-- Nothing is defined under it or refers to it. -/
  absent : ∀ id kind, arena.kind? id = some kind → name ∉ kind.word?
  /-- No routine has it. -/
  routine : Builtin.isRoutine name = false

/-- Nodes stand for the same behind the change, but for their names. -/
theorem kind?_renamed (arena : Arena) (bindings : NodeTable NodeId) (target : NodeId)
    (name : String) (id : NodeId) : (arena.renamed bindings target name).kind? id =
      (arena.kind? id).map (NodeKind.named (arena.newName bindings target name id)) := by
  have hnode : (arena.renamed bindings target name).kind? id = (arena.kind? id).map fun kind =>
      if Refers bindings target id then kind.named name else kind := by
    simp only [kind?, node?, renamed, Array.getElem?_mapIdx, Option.map_map]
    cases arena.nodes[id.index]? with
    | none => rfl
    | some node =>
      simp only [Option.map_some, Function.comp_apply]
      split <;> rfl
  rw [hnode]
  cases hk : arena.kind? id with
  | none => rfl
  | some kind =>
    simp only [Option.map_some, newName]
    split
    · rfl
    · rw [NodeKind.named_eq_self fun word hw => ?_]
      simp [Arena.word, hk, Option.mem_def.mp hw]

theorem size_renamed : (arena.renamed bindings target name).size = arena.size := by
  simp [size, renamed]

theorem depthBound_renamed :
    (arena.renamed bindings target name).depthBound = arena.depthBound := by
  rw [depthBound, size_renamed, depthBound]

section

variable (hbound : Binding.Bound arena bindings)

include hbound

/-- A definition is bound to nothing. -/
theorem get?_definition (hk : arena.kind? id = some (.definition item)) :
    bindings.get? id = none := by
  have hright := hbound id (index_lt_size hk)
  simpa [Binding.BoundRight, hk, NodeKind.accepted?] using hright

/-- Of the definitions only the one that is renamed has another name. -/
theorem newName_definition (hk : arena.kind? id = some (.definition item)) :
    arena.newName bindings target name id = if id = target then name else item.name := by
  have hword : arena.word id = item.name := by simp [word, hk, NodeKind.word?]
  simp only [newName, Refers, get?_definition hbound hk, reduceCtorEq, or_false, hword]

variable (hd : arena.definition? target = some item) (hn : arena.Unused name)

include hd hn

/-- A call is one of a routine behind the change if it was one before. -/
theorem keeps_newName (hk : arena.kind? id = some kind) :
    kind.Keeps (arena.newName bindings target name id) := by
  unfold NodeKind.Keeps
  split
  · next callee arguments =>
    have hright := hbound id (index_lt_size hk)
    simp only [Binding.BoundRight, hk, Option.bind_some, NodeKind.accepted?] at hright
    by_cases hr : Refers bindings target id
    · refine .inr ⟨?_, by rw [newName, if_pos hr]; exact hn.routine⟩
      rcases hr with rfl | hb
      · cases hk.symm.trans (kind?_of_definition? hd)
      · rw [hb] at hright
        cases hc : Builtin.isRoutine callee with
        | false => rfl
        | true => simp [hc] at hright
    · exact .inl (by rw [newName, if_neg hr]; simp [word, hk, NodeKind.word?])
  · trivial

/-- The program is alike behind the change. -/
theorem IsTree.alike_renamed {within : σ → Prop} (ht : arena.IsTree) :
    Alike (.valuesWithin within) (arena.newName bindings target name) arena
      (arena.renamed bindings target name) fun id => id.index < arena.size where
  kind := by
    intro id hid
    have hinside : id.index < arena.nodes.size := hid
    obtain ⟨kind, hk⟩ : ∃ kind, arena.kind? id = some kind := by simp [kind?, node?, hinside]
    exact ⟨kind, hk, by rw [kind?_renamed, hk]; rfl, keeps_newName hbound hd hn hk⟩
  child := by
    intro id kind hid hk below hm
    have hlt : below.index < id.index := ht.index_lt hk hm
    omega
  exact := .inl fun _ => trivial

/-- The new name tells definitions apart as the old one did, and what is bound to the definition has
it. -/
theorem renames_newName : Binding.Renames
    (.valuesWithin fun state => ∀ id target, state.bindings.get? id = some target →
      bindings.get? id = some target)
    (arena.newName bindings target name) arena fun id => id.index < arena.size where
  separates := by
    intro id other definition definition' _ _ hid hother he
    have hk := kind?_of_definition? hid
    have hk' := kind?_of_definition? hother
    rw [newName_definition hbound hk, newName_definition hbound hk'] at he
    have hunused : ∀ {other found}, arena.kind? other = some (.definition found) →
        found.name ≠ name := fun hf he => hn.absent _ _ hf (by rw [← he]; rfl)
    by_cases ht : id = target <;> by_cases ht' : other = target
    · subst ht ht'
      cases hid.symm.trans hother
      rfl
    · rw [if_pos ht, if_neg ht'] at he
      exact absurd he.symm (hunused hk')
    · rw [if_neg ht, if_pos ht'] at he
      exact absurd he (hunused hk)
    · rwa [if_neg ht, if_neg ht'] at he
  binds := by
    intro state id found hw hid hb hword
    have hbid := hw id found hb
    obtain ⟨definition, hdefinition⟩ := (hbound id hid).exists_definition hbid
    have hk := kind?_of_definition? hdefinition
    have hne : id ≠ target := by
      rintro rfl
      cases hbid.symm.trans (get?_definition hbound (kind?_of_definition? hd))
    rw [newName_definition hbound hk]
    simp only [newName, Refers, hne, false_or, hbid, Option.some.injEq]
    split
    · rfl
    · rw [hword, word_of_definition? hdefinition]

end

end Arena

/-- The accesses of two layouts are the same, except for type definitions. -/
def Layout.SameSlots (arena : Arena) (layout layout' : Layout) : Prop :=
  ∀ id, (∀ word written, arena.definition? id ≠ some (.type word written)) →
    layout'.accesses.get? id = layout.accesses.get? id

section Passes

variable {arena : Arena} {bindings : NodeTable NodeId} {types : NodeTable Ty}
  {layout layout' : Layout} {labels rest : LabelSupply} {target : NodeId} {name : String}
  {item : Definition} (ht : arena.IsTree) (hd : arena.definition? target = some item)
  (hn : arena.Unused name)

include ht hd hn

/-- The same references are bound, to the same definitions. -/
theorem Binding.ofArena_renamed (hb : ofArena arena = .ok bindings) :
    ofArena (arena.renamed bindings target name) = .ok bindings := by
  have ⟨root, hroot, hsize, _⟩ := ht
  have hbound := ofArena_bound ht hb
  have hroot' : (arena.renamed bindings target name).root = some root := hroot
  have hfollows := visitWithin_follows (ht.alike_renamed hbound hd hn)
    (fun _ => Arena.renames_newName hbound hd hn)
    (fun hkept hafter id found hg => hafter id found (hkept id found hg)) arena.depthBound
    (Nat.lt_of_succ_le (Nat.le_of_eq hsize))
  simp only [ofArena, hroot] at hb
  obtain ⟨state, state', hkept, hfinal, hs⟩ := hfollows.map_ok .initial hb
    fun _ middle _ he id found hg => he ▸ hg
  simp only [ofArena, hroot', visit, Arena.depthBound_renamed, hfinal, Except.map, hs.bindings,
    hkept]

/-- The same types are found. -/
theorem Typing.ofArena_renamed (hbound : Binding.Bound arena bindings)
    (h : ofArena arena bindings = .ok types) :
    ofArena (arena.renamed bindings target name) bindings = .ok types := by
  have ⟨root, hroot, hsize, _⟩ := ht
  have hroot' : (arena.renamed bindings target name).root = some root := hroot
  have hfollows : Same (.valuesWithin fun _ => True) (check arena bindings root)
      (checkWithin (arena.renamed bindings target name) bindings arena.depthBound root) :=
    (checks_same (ht.alike_renamed hbound hd hn) (fun _ => trivial) hbound.index_lt
      (.refl arena.depthBound)).2 root (Nat.lt_of_succ_le (Nat.le_of_eq hsize))
  simp only [ofArena, hroot] at h
  obtain ⟨state, state', hkept, hfinal, rfl⟩ := hfollows.map_ok rfl h fun _ _ _ _ => trivial
  simp only [ofArena, hroot', check, Arena.depthBound_renamed, hfinal, Except.map, hkept]

/-- The same frames are built, and values are kept at the same places. -/
theorem Layout.ofArena_renamed (hbound : Binding.Bound arena bindings)
    (htop : target ∈ arena.outermost → item.kind ≠ .function ∧ item.kind ≠ .var)
    (h : ofArena arena bindings types labels = .ok (layout, rest)) :
    ∃ layout', ofArena (arena.renamed bindings target name) bindings types labels =
        .ok (layout', rest) ∧
      layout'.frames = layout.frames ∧ SameSlots arena layout layout' := by
  have ⟨root, hroot, hsize, hs⟩ := ht
  obtain ⟨members, hk⟩ := hs.exists_members
  have hroot' : (arena.renamed bindings target name).root = some root := hroot
  have houtermost : arena.outermost = members := by simp [Arena.outermost, hroot, hk]
  let p : Pairing := .same (fun id => id.index < arena.size)
    (fun id => ∀ word written, arena.definition? id ≠ some (.type word written)) rest.next
  have hm : ∀ member ∈ members, ∃ found, arena.kind? member = some (.definition found) ∧
      (p.settled member → arena.newName bindings target name member = found.name) ∧
        ((NodeKind.definition found).isFunction = true →
          arena.newName bindings target name member = found.name) := by
    intro member hmember
    obtain ⟨found, hfound, hparameter⟩ := hs.exists_definition hk hmember
    have hdefinition : arena.definition? member = some found := by
      simp [Arena.definition?, hfound]
    rw [Arena.newName_definition hbound hfound]
    by_cases he : member = target
    · -- the definition itself is a type, which is not compared and no function
      subst he
      cases hd.symm.trans hdefinition
      obtain ⟨hfunction, hvar⟩ := htop (houtermost ▸ hmember)
      refine ⟨item, hfound, fun hsettled => ?_, fun hf => ?_⟩ <;> cases item with
      | function => exact absurd rfl hfunction
      | var => exact absurd rfl hvar
      | parameter => exact absurd rfl hparameter
      | type word written => first | exact absurd hdefinition (hsettled word written) | cases hf
    · exact ⟨found, hfound, fun _ => if_neg he, fun _ => if_neg he⟩
  have hfollows : p.Same (.valuesWithin fun state => state.labels.next ≤ rest.next) 0
      (fun value => value) (visitWithin arena bindings types arena.depthBound root)
      (visitWithin (arena.renamed bindings target name) bindings types arena.depthBound root) :=
    visitProgram_follows (ht.alike_renamed hbound hd hn) (fun _ => Iff.rfl) arena.depthBound
      (Nat.lt_of_succ_le (Nat.le_of_eq hsize)) hk hm
  simp only [ofArena, hroot] at h
  obtain ⟨state, state', hkept, hfinal, hr⟩ := hfollows.map_ok
    (Pairing.related_initial _ _ _ labels) h fun _ middle _ he =>
      Nat.le_of_eq (congrArg (fun kept => kept.2.next) he)
  cases hkept
  refine ⟨state'.layout, ?_, hr.frames_eq, fun id hsettled => hr.access_eq fun _ => hsettled⟩
  simp only [ofArena, hroot', visit, Arena.depthBound_renamed, hfinal, Except.map,
    hr.labels.eq_of_same]

/-- The same code is kept, and the same chunks are emitted. -/
theorem Lowering.ofProgram_renamed {trees : NodeTable Ir.Tree} {chunks : Array Chunk}
    (hbound : Binding.Bound arena bindings) (hframes : layout'.frames = layout.frames)
    (hslots : Layout.SameSlots arena layout layout')
    (h : ofProgram ⟨arena, bindings, types, layout⟩ labels = .ok (trees, chunks)) :
    ofProgram ⟨arena.renamed bindings target name, bindings, types, layout'⟩ labels =
      .ok (trees, chunks) := by
  have ⟨root, hroot, hsize, _⟩ := ht
  have hid : root.index < arena.size := Nat.lt_of_succ_le (Nat.le_of_eq hsize)
  have hroot' : (arena.renamed bindings target name).root = some root := hroot
  let program : Program := ⟨arena, bindings, types, layout⟩
  let program' : Program := ⟨arena.renamed bindings target name, bindings, types, layout'⟩
  let run := lowerDefinitions program (lower program) root (.initial labels)
  let limit : Nat := (Pass.reached run).labels.next
  let p : Pairing := .same (fun id => id.index < arena.size) labels limit
  have haccess : ∀ id, (∀ word written, arena.definition? id ≠ some (.type word written)) →
      layout'.accesses.get? id =
        (layout.accesses.get? id).map (Access.relabel p.renumbering.renumber) :=
    fun id hsettled => (hslots id hsettled).trans (Access.map_relabel_same limit _).symm
  have hmatched : p.Matched (.valuesWithin fun state => state.labels.next ≤ limit)
      (arena.newName bindings target name) program program' :=
    { alike := ht.alike_renamed hbound hd hn
      bindings := rfl
      types := rfl
      frames := fun id =>
        (congrArg (NodeTable.get? · id) hframes).trans (Frame.map_relabel_same limit _).symm
      reach := fun hid hb => .inl (hbound.index_lt hid hb)
      named := fun {id word found} hid hk hb => haccess found fun text written hf => by
        have hname : arena.kind? id = some (.expression (.name word)) := hk
        have htarget : bindings.get? id = some found := hb
        have hright := hbound id hid
        simp [Binding.BoundRight, hname, htarget, NodeKind.accepted?, hf, Definition.kind] at hright
      stored := fun {id word written} _ hk => haccess id fun text other hf => by
        cases hk.symm.trans (Arena.kind?_of_definition? hf) }
  have hfollows := lowerDefinitions_follows hmatched (fun _ => Iff.rfl)
    (fun _ hbelow => lowerWithin_follows hmatched (fun _ => Iff.rfl) arena.depthBound hbelow) hid
  simp only [ofProgram, hroot] at h
  obtain ⟨state, state', hkept, hfinal, hr⟩ := hfollows.map_ok
    (Pairing.related_initial _ labels _) h fun _ middle he _ =>
      Nat.le_of_eq (congrArg (fun found => (Pass.reached found).labels.next) he).symm
  cases hkept
  have hrun : Pass.finalState (lowerDefinitions program' (lower program') root) (.initial labels) =
      .ok state' := by
    rw [lower, show program'.arena.depthBound = arena.depthBound from Arena.depthBound_renamed]
    exact hfinal
  simp only [ofProgram, hroot']
  rw [hrun, Except.map, hr.trees_eq, hr.chunks_eq]

end Passes

namespace Compilation

/-- A definition that does not stand outside all functions, or is a type, may be renamed together
with all that is bound to it. If the new name does not occur in the program and is not one of a
routine, the program is compiled to the same. -/
theorem renaming_harmless {file : String} {tokens : List Token} {arena : Arena}
    {compiled : Compilation} {target : NodeId} {item : Definition} {name : String}
    (hp : parse file tokens = .ok arena) (hc : ofArena arena = .ok compiled)
    (hd : arena.definition? target = some item)
    (htop : target ∈ arena.outermost → item.kind ≠ .function ∧ item.kind ≠ .var)
    (hn : arena.Unused name) :
    ∃ compiled', ofArena (arena.renamed compiled.program.bindings target name) = .ok compiled' ∧
      compiled'.program.bindings = compiled.program.bindings ∧
      compiled'.program.types = compiled.program.types ∧
      compiled'.program.layout.frames = compiled.program.layout.frames ∧
      compiled'.trees = compiled.trees ∧ compiled'.chunks = compiled.chunks := by
  have htree := parse_isTree hp
  obtain ⟨bindings, types, layout, labels, hb, ht, hl, hlowered, he⟩ := ofArena_eq_ok hc
  have hbound := Binding.ofArena_bound htree hb
  obtain ⟨layout', hl', hframes, hslots⟩ :=
    Layout.ofArena_renamed htree hd hn hbound htop hl
  refine ⟨⟨⟨arena.renamed bindings target name, bindings, types, layout'⟩, compiled.trees,
    compiled.chunks⟩, ?_, ?_⟩
  · simp only [ofArena, he, Binding.ofArena_renamed htree hd hn hb,
      Typing.ofArena_renamed htree hd hn hbound ht, hl',
      Lowering.ofProgram_renamed htree hd hn hbound hframes hslots hlowered, bind, Except.bind,
      pure, Except.pure]
  · simp only [he, hframes, and_self]

/-- A parameter is renamed, and with it the body that names it. -/
theorem renaming_harmless_of_parameter :
    ∃ arena compiled compiled', ofArena arena = .ok compiled ∧
      arena.kind? ⟨3⟩ = some (.expression (.name "x")) ∧
      (arena.renamed compiled.program.bindings ⟨1⟩ "y").kind? ⟨3⟩ =
        some (.expression (.name "y")) ∧
      ofArena (arena.renamed compiled.program.bindings ⟨1⟩ "y") = .ok compiled' ∧
      compiled'.chunks = compiled.chunks := by
  obtain ⟨compiled, hc, hroot, hkinds, hbound⟩ : ∃ compiled,
      ofSource "test" "fun f(x: integer): integer = x" = .ok compiled ∧
      compiled.program.arena.root = some ⟨5⟩ ∧
      compiled.program.arena.nodes.toList.map Node.kind = [.type (.atom .integer),
        .definition (.parameter "x" ⟨0⟩), .type (.atom .integer), .expression (.name "x"),
        .definition (.function "f" [⟨1⟩] ⟨2⟩ ⟨3⟩), .definitions [⟨4⟩]] ∧
      compiled.program.bindings.get? ⟨3⟩ = some ⟨1⟩ :=
    exists_of_any (by decide +kernel)
  obtain ⟨tokens, arena, _, hp, ha⟩ := ofSource_eq_ok hc
  obtain ⟨_, _, _, _, _, _, _, _, he⟩ := ofArena_eq_ok ha
  have harena : compiled.program.arena = arena := by rw [he]
  rw [harena] at hroot hkinds
  have hkind : ∀ id : NodeId, arena.kind? id = (arena.nodes.toList.map Node.kind)[id.index]? :=
    fun id => by simp [Arena.kind?, Arena.node?]
  simp only [hkinds] at hkind
  have hunused : arena.Unused "y" := by
    refine ⟨fun id kind hk => ?_, by decide⟩
    have hlist : ∀ kind ∈ ([.type (.atom .integer),
        .definition (.parameter "x" ⟨0⟩), .type (.atom .integer), .expression (.name "x"),
        .definition (.function "f" [⟨1⟩] ⟨2⟩ ⟨3⟩), .definitions [⟨4⟩]] : List NodeKind),
        "y" ∉ kind.word? := by decide
    exact hlist kind (List.mem_of_getElem? ((hkind id).symm.trans hk))
  have htop : (⟨1⟩ : NodeId) ∈ arena.outermost →
      (Definition.parameter "x" ⟨0⟩).kind ≠ .function ∧
        (Definition.parameter "x" ⟨0⟩).kind ≠ .var := fun _ => by decide
  obtain ⟨compiled', hc', _, _, _, _, hchunks⟩ := renaming_harmless hp ha
    (by simp [Arena.definition?, hkind] : arena.definition? ⟨1⟩ = some (.parameter "x" ⟨0⟩)) htop
    hunused
  refine ⟨arena, compiled, compiled', ha, by simp [hkind], ?_, hc', hchunks⟩
  rw [Arena.kind?_renamed, hkind, Arena.newName, if_pos (.inr hbound)]
  rfl

end Compilation

end Pins
