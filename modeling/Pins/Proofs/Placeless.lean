import Pins.Proofs.BoundAlike
import Pins.Proofs.LaidOutAlike
import Pins.Proofs.LoweredAlike
import Pins.Proofs.Progress
import Pins.Proofs.TypedAlike
import Pins.Proofs.Unplaced

/-!
# Compiling without places

Where the nodes of a program were read does not matter: arenas that differ in the places of their
nodes are compiled to the same, or refused for the same fault, by each pass and so by all of them
together. Sources with the same tokens are such arenas, however they are laid out
(`ofSource_placeless`).
-/

namespace Pins

open Pass (SameOutcome)

variable {arena arena' : Arena} {bindings : NodeTable NodeId} {types : NodeTable Ty}
  {layout : Layout} {labels : LabelSupply}

namespace Arena

/-- Arenas that differ in places have the same nodes. -/
theorem kind?_eq_of_unplaced (h : arena'.unplaced = arena.unplaced) (id : NodeId) :
    arena'.kind? id = arena.kind? id := by
  rw [← kind?_unplaced arena', h, kind?_unplaced]

theorem size_eq_of_unplaced (h : arena'.unplaced = arena.unplaced) : arena'.size = arena.size := by
  rw [← size_unplaced arena', h, size_unplaced]

theorem root_eq_of_unplaced (h : arena'.unplaced = arena.unplaced) : arena'.root = arena.root :=
  (congrArg Arena.root h : arena'.unplaced.root = arena.unplaced.root)

theorem depthBound_eq_of_unplaced (h : arena'.unplaced = arena.unplaced) :
    arena'.depthBound = arena.depthBound := by
  rw [depthBound, size_eq_of_unplaced h, depthBound]

/-- Arenas that differ in places are alike, and each pass over them stops for the same faults. -/
theorem IsTree.alike_unplaced {σ : Type} {within : σ → Prop} (ht : arena.IsTree)
    (h : arena'.unplaced = arena.unplaced) :
    Alike (.faultsWithin within) arena.word arena arena' fun id => id.index < arena.size :=
  ht.alike (Nat.le_refl _) (fun id _ => kind?_eq_of_unplaced h id) fun _ _ _ => rfl

end Arena

/-- Binding does not depend on places. -/
theorem Binding.ofArena_placeless (ht : arena.IsTree) (h : arena'.unplaced = arena.unplaced) :
    SameOutcome Eq (ofArena arena) (ofArena arena') := by
  have ⟨root, hroot, hsize, _⟩ := ht
  have hfollows := visitWithin_follows (c := .faults) (ht.alike_unplaced h)
    (fun hx => (hx ⟨.internalError "", .origin ""⟩).elim) (fun _ _ => trivial) arena.depthBound
    (Nat.lt_of_succ_le (Nat.le_of_eq hsize))
  simp only [ofArena, Arena.root_eq_of_unplaced h, hroot, visit, Arena.depthBound_eq_of_unplaced h]
  exact (hfollows.sameOutcome .initial trivial).map fun _ _ hs => hs.bindings.symm

/-- Typing does not depend on places. -/
theorem Typing.ofArena_placeless (ht : arena.IsTree) (hbound : Binding.Bound arena bindings)
    (h : arena'.unplaced = arena.unplaced) :
    SameOutcome Eq (ofArena arena bindings) (ofArena arena' bindings) := by
  have ⟨root, hroot, hsize, _⟩ := ht
  have hfollows := (checks_same (c := .faults) (ht.alike_unplaced h) (fun _ => trivial)
    hbound.index_lt (.refl arena.depthBound)).2 root (Nat.lt_of_succ_le (Nat.le_of_eq hsize))
  simp only [ofArena, Arena.root_eq_of_unplaced h, hroot, check, Arena.depthBound_eq_of_unplaced h]
  exact (hfollows.sameOutcome rfl trivial).map fun _ _ hs => congrArg State.types hs

/-- Layout does not depend on places. -/
theorem Layout.ofArena_placeless (ht : arena.IsTree) (h : arena'.unplaced = arena.unplaced) :
    SameOutcome Eq (ofArena arena bindings types labels)
      (ofArena arena' bindings types labels) := by
  have ⟨root, hroot, hsize, _⟩ := ht
  let limit : Nat := (Pass.reached (visit arena bindings types root (.initial labels))).labels.next
  let p : Pairing := .same (fun id => id.index < arena.size) (fun _ => True) limit
  have hfollows : p.Same (.faultsWithin fun state => state.labels.next ≤ limit) 0
      (fun value => value) (visitWithin arena bindings types arena.depthBound root)
      (visitWithin arena' bindings types arena.depthBound root) :=
    visitProgram_same (fun _ => Iff.rfl) (ht.alike_unplaced h) ht hroot
      (Nat.lt_of_succ_le (Nat.le_of_eq hsize)) arena.depthBound
  simp only [ofArena, Arena.root_eq_of_unplaced h, hroot, visit, Arena.depthBound_eq_of_unplaced h]
  refine (hfollows.sameOutcome (Pairing.related_initial _ _ _ labels) (Nat.le_refl _)).map
    fun state state' hr => ?_
  rw [hr.labels.eq_of_same, hr.layout_eq fun _ _ => trivial]

/-- Lowering does not depend on places. -/
theorem Lowering.ofProgram_placeless (ht : arena.IsTree) (hbound : Binding.Bound arena bindings)
    (h : arena'.unplaced = arena.unplaced) :
    SameOutcome Eq (ofProgram ⟨arena, bindings, types, layout⟩ labels)
      (ofProgram ⟨arena', bindings, types, layout⟩ labels) := by
  have ⟨root, hroot, hsize, _⟩ := ht
  have hid : root.index < arena.size := Nat.lt_of_succ_le (Nat.le_of_eq hsize)
  let program : Program := ⟨arena, bindings, types, layout⟩
  let program' : Program := ⟨arena', bindings, types, layout⟩
  let run := lowerDefinitions program (lower program) root (.initial labels)
  let limit : Nat := (Pass.reached run).labels.next
  let p : Pairing := .same (fun id => id.index < arena.size) labels limit
  have hmatched : p.Matched (.faultsWithin fun state => state.labels.next ≤ limit) arena.word
      program program' :=
    { alike := ht.alike_unplaced h
      bindings := rfl
      types := rfl
      frames := fun _ => (Frame.map_relabel_same limit _).symm
      reach := fun hid hb => .inl (hbound.index_lt hid hb)
      named := fun _ _ _ => (Access.map_relabel_same limit _).symm
      stored := fun _ _ => (Access.map_relabel_same limit _).symm }
  have hfollows := lowerDefinitions_follows hmatched (fun _ => Iff.rfl)
    (fun _ hbelow => lowerWithin_follows hmatched (fun _ => Iff.rfl) arena.depthBound hbelow) hid
  simp only [ofProgram, Arena.root_eq_of_unplaced h, hroot, lower,
    Arena.depthBound_eq_of_unplaced h]
  refine (hfollows.sameOutcome (Pairing.related_initial _ labels _) (Nat.le_refl _)).map
    fun state state' hr => ?_
  rw [hr.trees_eq, hr.chunks_eq]

namespace Compilation

/-- Two compilations are the same but for the places of the nodes. -/
structure SameButPlaces (compiled compiled' : Compilation) : Prop where
  /-- The programs have the same nodes. -/
  arena : compiled'.program.arena.unplaced = compiled.program.arena.unplaced
  /-- References mean the same definitions. -/
  bindings : compiled'.program.bindings = compiled.program.bindings
  /-- Nodes have the same types. -/
  types : compiled'.program.types = compiled.program.types
  /-- Functions have the same frames, and definitions the same accesses. -/
  layout : compiled'.program.layout = compiled.program.layout
  /-- Nodes have the same code. -/
  trees : compiled'.trees = compiled.trees
  /-- The chunks are the same, in the same order. -/
  chunks : compiled'.chunks = compiled.chunks

/-- Compiling a program that was read does not depend on places. -/
theorem ofArena_placeless (ht : arena.IsTree) (h : arena'.unplaced = arena.unplaced) :
    SameOutcome SameButPlaces (ofArena arena) (ofArena arena') := by
  refine (Binding.ofArena_placeless ht h).bind fun bindings _ hb he => ?_
  subst he
  have hbound := Binding.ofArena_bound ht hb
  refine (Typing.ofArena_placeless ht hbound h).bind fun types _ _ he => ?_
  subst he
  refine (Layout.ofArena_placeless ht h).bind fun laidOut _ _ he => ?_
  subst he
  refine (Lowering.ofProgram_placeless ht hbound h).bind fun lowered _ _ he => ?_
  subst he
  exact ⟨h, rfl, rfl, rfl, rfl, rfl⟩

/-- Sources that have the same tokens, up to the places of these, are compiled to the same, up to
the places of nodes, or are refused for the same fault. -/
theorem ofSource_placeless {file file' source source' : String} {tokens tokens' : List Token}
    (ht : tokenize file source = .ok tokens) (ht' : tokenize file' source' = .ok tokens')
    (h : tokens'.map (fun token => (token.kind, token.value)) =
      tokens.map fun token => (token.kind, token.value)) :
    SameOutcome SameButPlaces (ofSource file source) (ofSource file' source') := by
  have hunplaced : tokens'.map Token.unplaced = tokens.map Token.unplaced := by
    have hfinish := congrArg (List.map fun found : TokenKind × String =>
      (⟨found.1, found.2, .nowhere⟩ : Token)) h
    rwa [List.map_map, List.map_map] at hfinish
  simp only [ofSource, ht, ht', bind, Except.bind]
  exact (parse_unplaced hunplaced).bind fun arena arena' hp he =>
    ofArena_placeless (parse_isTree hp) he

/-- A comment and a line break more or less. -/
theorem ofSource_placeless_of_comment :
    ∃ tokens tokens' compiled compiled', tokenize "a" "var x: integer" = .ok tokens ∧
      tokenize "b" "# storage\nvar x :\n  integer" = .ok tokens' ∧ tokens' ≠ tokens ∧
      ofSource "a" "var x: integer" = .ok compiled ∧
      ofSource "b" "# storage\nvar x :\n  integer" = .ok compiled' ∧
      SameButPlaces compiled compiled' := by
  have hread : (tokenize "a" "var x: integer").toOption.map
      (List.map fun token => (token.kind, token.value)) =
        some [(.varWord, "var"), (.identifier, "x"), (.colon, ":"), (.integerType, "integer"),
          (.eof, "EOF")] := by
    decide +kernel
  have hread' : (tokenize "b" "# storage\nvar x :\n  integer").toOption.map
      (List.map fun token => (token.kind, token.value)) =
        some [(.varWord, "var"), (.identifier, "x"), (.colon, ":"), (.integerType, "integer"),
          (.eof, "EOF")] := by
    decide +kernel
  have hne : (tokenize "b" "# storage\nvar x :\n  integer").toOption ≠
      (tokenize "a" "var x: integer").toOption := by
    decide +kernel
  have hok : (ofSource "a" "var x: integer").isOk = true := by decide +kernel
  -- from here on it does not matter what the sources are
  generalize "var x: integer" = source at hread hne hok ⊢
  generalize "# storage\nvar x :\n  integer" = source' at hread' hne ⊢
  cases ht : tokenize "a" source with
  | error => simp [ht, Except.toOption] at hread
  | ok tokens =>
    cases ht' : tokenize "b" source' with
    | error => simp [ht', Except.toOption] at hread'
    | ok tokens' =>
      simp only [ht, ht', Except.toOption, Option.map_some, ne_eq, Option.some.injEq]
        at hread hread' hne
      obtain ⟨compiled, hc⟩ := exists_of_isOk hok
      have hsame := ofSource_placeless ht ht' (hread'.trans hread.symm)
      rw [hc] at hsame
      cases hc' : ofSource "b" source' with
      | error diagnostic =>
        rw [hc'] at hsame
        exact hsame.elim
      | ok compiled' =>
        rw [hc'] at hsame
        exact ⟨tokens, tokens', compiled, compiled', rfl, rfl, hne, hc, rfl, hsame⟩

end Compilation

end Pins
