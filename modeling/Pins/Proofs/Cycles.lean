import Pins.Proofs.TypedAlike
import Pins.Proofs.WellTyped

/-!
# Cycles of type definitions

A type definition mentions another one if this is named inside its written type, through any depth
of arrays. Typing recurses along these mentions, not down the tree, and a program may mention in
circles. Still the recursion ends: typing never reaches a bound on its depth, however large, and it
refuses the programs with a cycle. A cycle that is reported at a definition is one of this very
definition (`ofArena_finds_cycles`).
-/

namespace Pins.Typing

variable {arena : Arena} {bindings : NodeTable NodeId} {id source target : NodeId}

/-- A node is a written type or a part of it, through any depth of arrays. -/
inductive PartOf (arena : Arena) (part : NodeId) : NodeId → Prop
  | self : PartOf arena part part
  | element {id element : NodeId} {length : Nat}
      (hk : arena.kind? id = some (.type (.array length element)))
      (hp : PartOf arena part element) : PartOf arena part id

/-- A type definition names another one inside its written type. -/
def Mentions (arena : Arena) (bindings : NodeTable NodeId) (id target : NodeId) : Prop :=
  ∃ name written reference word, arena.kind? id = some (.definition (.type name written)) ∧
    PartOf arena reference written ∧ arena.kind? reference = some (.type (.name word)) ∧
    bindings.get? reference = some target

/-- What is part of a written type feeds it. -/
theorem PartOf.feeds {part : NodeId} (h : PartOf arena part id) :
    Relation.ReflTransGen (Feeds arena bindings) part id := by
  induction h with
  | self => exact .refl
  | element hk _ ih =>
    exact ih.tail ⟨_, hk, .inl (by simp [NodeKind.sources, WrittenType.children])⟩

/-- What a type definition mentions feeds it. -/
theorem Mentions.feeds (h : Mentions arena bindings id target) :
    Relation.TransGen (Feeds arena bindings) target id := by
  obtain ⟨name, written, reference, word, hk, hpart, href, hb⟩ := h
  have hnamed : Feeds arena bindings target reference := ⟨_, href, .inr ⟨word, rfl, hb⟩⟩
  have hwritten : Feeds arena bindings written id := ⟨_, hk, .inl (by simp [NodeKind.sources])⟩
  exact (Relation.TransGen.head' hnamed hpart.feeds).tail hwritten

/-- Definitions that mention each other in a circle feed each other in a circle. -/
theorem feeds_of_mentions (h : Relation.TransGen (Mentions arena bindings) id target) :
    Relation.TransGen (Feeds arena bindings) target id := by
  induction h with
  | single hm => exact hm.feeds
  | tail _ hm ih => exact hm.feeds.trans ih

/-- What is below a type definition or a written type is a written type. -/
theorem exists_type_of_mem_sources {kind : NodeKind} (ht : arena.IsTree)
    (hk : arena.kind? id = some kind)
    (hkind : (∃ name written, kind = .definition (.type name written)) ∨ ∃ item, kind = .type item)
    (hs : source ∈ kind.sources) : ∃ item, arena.kind? source = some (.type item) := by
  obtain ⟨_, _, hid⟩ := ht.exists_subtree hk
  obtain ⟨kind', hk', _, _, hf⟩ := Arena.subtree_iff.mp hid
  cases hk.symm.trans hk'
  have hplace : (Place.type, source) ∈ kind.places := by
    rcases hkind with ⟨name, written, rfl⟩ | ⟨item, rfl⟩
    · simpa [NodeKind.sources, NodeKind.places] using hs
    · simpa [NodeKind.sources, NodeKind.places] using hs
  obtain ⟨_, hsub, _, _⟩ := hf.subtree hplace
  obtain ⟨found, hfound, hadmits, _, _⟩ := Arena.subtree_iff.mp hsub
  cases found with
  | type item => exact ⟨item, hfound⟩
  | definitions | definition | expression => cases hadmits

/-- The element of a part is a part. -/
theorem PartOf.inner {part element : NodeId} {length : Nat} (h : PartOf arena part id)
    (hk : arena.kind? part = some (.type (.array length element))) : PartOf arena element id := by
  induction h with
  | self => exact .element hk .self
  | element houter _ ih => exact .element houter ih

/-- The parts of a written type are written types. -/
theorem PartOf.exists_type {part : NodeId} (h : PartOf arena part id) (ht : arena.IsTree)
    (hid : ∃ item, arena.kind? id = some (.type item)) :
    ∃ item, arena.kind? part = some (.type item) := by
  induction h with
  | self => exact hid
  | element hk _ ih =>
    exact ih (exists_type_of_mem_sources ht hk (.inr ⟨_, rfl⟩)
      (by simp [NodeKind.sources, WrittenType.children]))

/-- What feeds a part of the written type of a definition is a part again, or is mentioned. -/
theorem mentions_or_partOf {part written : NodeId} {name : String} (ht : arena.IsTree)
    (hk : arena.kind? id = some (.definition (.type name written)))
    (hp : PartOf arena part written) (hf : Feeds arena bindings source part) :
    Mentions arena bindings id source ∨
      PartOf arena source written ∧ ∃ item, arena.kind? source = some (.type item) := by
  have hwritten := exists_type_of_mem_sources ht hk (.inl ⟨_, _, rfl⟩) (List.mem_singleton.mpr rfl)
  obtain ⟨item, hitem⟩ := hp.exists_type ht hwritten
  rcases hf.of_kind hitem with hs | ⟨word, he, hb⟩
  · refine .inr ⟨?_, exists_type_of_mem_sources ht hitem (.inr ⟨_, rfl⟩) hs⟩
    cases item with
    | atom | name => simp [NodeKind.sources, WrittenType.children] at hs
    | array length element =>
      obtain rfl : source = element := by
        simpa [NodeKind.sources, WrittenType.children] using hs
      exact hp.inner hitem
  · cases he
    exact .inl ⟨name, written, part, word, hk, hp, hitem, hb⟩

/-- What a type definition mentions is a type definition. -/
theorem Mentions.exists_definition (h : Mentions arena bindings id target)
    (hbound : Binding.Bound arena bindings) :
    ∃ name written, arena.kind? target = some (.definition (.type name written)) := by
  obtain ⟨_, _, reference, word, _, _, href, hb⟩ := h
  have hright := hbound reference (Arena.index_lt_size href)
  simp only [Binding.BoundRight, href, Option.bind_some, NodeKind.accepted?] at hright
  obtain ⟨found, definition, hb', hd, hkind⟩ := hright
  cases hb.symm.trans hb'
  cases definition with
  | type name written => exact ⟨name, written, Arena.kind?_of_definition? hd⟩
  | function | var | parameter => simp [Definition.kind] at hkind

/-- A type definition that feeds another one, or a part of its written type, is mentioned by it,
directly or through others. -/
theorem mentions_of_feeds (ht : arena.IsTree) (hbound : Binding.Bound arena bindings)
    {name : String} {written : NodeId}
    (hs : arena.kind? source = some (.definition (.type name written)))
    (h : Relation.TransGen (Feeds arena bindings) source target) :
    (∀ id name written, arena.kind? id = some (.definition (.type name written)) →
      PartOf arena target written → Relation.TransGen (Mentions arena bindings) id source) ∧
    ∀ name written, arena.kind? target = some (.definition (.type name written)) →
      Relation.TransGen (Mentions arena bindings) target source := by
  have hnot : ∀ item, arena.kind? source ≠ some (.type item) := fun item he => by
    cases hs.symm.trans he
  -- a definition is fed by its written type only
  have hdefinition : ∀ {node below name written},
      arena.kind? node = some (.definition (.type name written)) →
      Feeds arena bindings below node → below = written := by
    intro node below name written hk hf
    rcases hf.of_kind hk with hm | ⟨_, he, _⟩
    · simpa [NodeKind.sources] using hm
    · cases he
  induction h with
  | single hf =>
    constructor
    · intro id name written hk hp
      rcases mentions_or_partOf ht hk hp hf with hm | ⟨_, item, hitem⟩
      · exact .single hm
      · exact absurd hitem (hnot item)
    · intro name written hk
      obtain rfl := hdefinition hk hf
      obtain ⟨item, hitem⟩ := exists_type_of_mem_sources ht hk (.inl ⟨_, _, rfl⟩)
        (List.mem_singleton.mpr rfl)
      exact absurd hitem (hnot item)
  | tail _ hf ih =>
    constructor
    · intro id name written hk hp
      rcases mentions_or_partOf ht hk hp hf with hm | ⟨hpart, _⟩
      · obtain ⟨found, inner, hfound⟩ := hm.exists_definition hbound
        exact .head hm (ih.2 found inner hfound)
      · exact ih.1 id name written hk hpart
    · intro name written hk
      obtain rfl := hdefinition hk hf
      exact ih.1 _ name _ hk .self

/-- Under any bound above the usual one, checking a bound program ends in the same way, and not
because of the bound. -/
theorem check_bound_irrelevant {root : NodeId} {more : Nat} (ht : arena.IsTree)
    (hbound : Binding.Bound arena bindings) (hroot : arena.root = some root)
    (hle : arena.depthBound ≤ more) :
    Pass.finalState (checkWithin arena bindings more root) .initial =
      Pass.finalState (check arena bindings root) .initial := by
  have ⟨root', hroot', hsize, hs⟩ := ht
  cases hroot.symm.trans hroot'
  let c : Pass.Comparison State :=
    ⟨fun _ => True, fun diagnostic => ∃ message, diagnostic.fault = .internalError message,
      fun diagnostic found => found = diagnostic⟩
  have halike : arena.Alike c arena.word arena fun id => id.index < arena.size :=
    ht.alike (Nat.le_refl _) (fun _ _ => rfl) fun _ _ _ => rfl
  have hsame := (checks_same halike (fun _ => trivial) hbound.index_lt
    (⟨hle, fun _ _ message he => ⟨message, he⟩⟩ : Bounded c arena.depthBound more)).2 root
      (by omega)
  obtain ⟨hok, herror⟩ := hsame.finalState (rfl : State.initial = _) trivial
  cases hc : Pass.finalState (check arena bindings root) .initial with
  | ok after =>
    obtain ⟨_, hmore, rfl⟩ := hok after hc
    exact hmore
  | error diagnostic =>
    rcases herror diagnostic hc with ⟨message, hm⟩ | ⟨_, hmore, rfl⟩
    · have hstop : ofArena arena bindings = .error diagnostic := by
        simp only [ofArena, hroot, hc, Except.map]
      have hrefused := (ofArena_rejects ht hbound hstop).refuses
      simp [hm, Refuses] at hrefused
    · exact hmore

/-- Typing a bound program ends: however much deeper its calls might be nested, it does the same,
and it does not stop because of their bound. It refuses the programs whose type definitions mention
each other in a circle, and a definition that is reported for a cycle is on one. -/
theorem ofArena_finds_cycles {file : String} {tokens : List Token} {arena : Arena}
    {bindings : NodeTable NodeId} (hp : parse file tokens = .ok arena)
    (hb : Binding.ofArena arena = .ok bindings) :
    (∀ root more, arena.root = some root → arena.depthBound ≤ more →
      Pass.finalState (checkWithin arena bindings more root) .initial =
        Pass.finalState (check arena bindings root) .initial) ∧
    (∀ diagnostic message, ofArena arena bindings = .error diagnostic →
      diagnostic.fault ≠ .internalError message) ∧
    (∀ id, Relation.TransGen (Mentions arena bindings) id id →
      ∀ types, ofArena arena bindings ≠ .ok types) ∧
    ∀ diagnostic name, ofArena arena bindings = .error diagnostic →
      diagnostic.fault = .cyclicTypeDefinition name →
      ∃ id written, arena.kind? id = some (.definition (.type name written)) ∧
        diagnostic.position = arena.position id ∧
        Relation.TransGen (Mentions arena bindings) id id := by
  have htree := parse_isTree hp
  have hbound := Binding.ofArena_bound htree hb
  refine ⟨fun root more hroot hle => check_bound_irrelevant htree hbound hroot hle, ?_, ?_, ?_⟩
  · intro diagnostic message h hm
    have hrefused := ofArena_refuses htree hbound h
    simp [hm, Refuses] at hrefused
  · intro id hcycle types h
    obtain ⟨_, hfirst, _⟩ := Relation.TransGen.head'_iff.mp hcycle
    obtain ⟨name, written, _, _, hk, _⟩ := hfirst
    obtain ⟨type, htype⟩ := (ofArena_typed htree hbound h).wellTyped.total hk rfl
    exact htype.not_transGen (feeds_of_mentions hcycle)
  · intro diagnostic name h hf
    obtain ⟨id, written, hk, hposition, hcycle⟩ := (ofArena_rejects htree hbound h).cyclic name hf
    exact ⟨id, written, hk, hposition, (mentions_of_feeds htree hbound hk hcycle).2 name written hk⟩

/-- Two types that are arrays of each other are on a cycle, which is reported at the first of them
and refused. -/
theorem ofArena_finds_cycles_of_arrays :
    ∃ tokens arena bindings diagnostic id written,
      tokenize "test" "typ a: arr[2] arr[3] b; typ b: arr[4] a" = .ok tokens ∧
        parse "test" tokens = .ok arena ∧ Binding.ofArena arena = .ok bindings ∧
        ofArena arena bindings = .error diagnostic ∧
        arena.kind? id = some (.definition (.type "a" written)) ∧
        Relation.TransGen (Mentions arena bindings) id id ∧
        ∀ types, ofArena arena bindings ≠ .ok types := by
  have hs : ((tokenize "test" "typ a: arr[2] arr[3] b; typ b: arr[4] a").toOption.any fun tokens =>
      (parse "test" tokens).toOption.any fun arena =>
        (Binding.ofArena arena).toOption.any fun bindings =>
          match ofArena arena bindings with
          | .ok _ => false
          | .error diagnostic => decide (diagnostic.fault = .cyclicTypeDefinition "a")) = true := by
    decide +kernel
  have hok : ∀ {α : Type} {e : Except Diagnostic α} {value : α}, e.toOption = some value →
      e = .ok value := by
    intro α e value h
    cases e <;> cases h
    rfl
  simp only [Option.any_eq_true] at hs
  obtain ⟨tokens, ht, arena, hp, bindings, hb, hc⟩ := hs
  have hp := hok hp
  have hb := hok hb
  cases hty : ofArena arena bindings with
  | ok types => simp [hty] at hc
  | error diagnostic =>
    obtain ⟨_, _, hrefused, hreported⟩ := ofArena_finds_cycles hp hb
    obtain ⟨id, written, hk, _, hcycle⟩ :=
      hreported diagnostic "a" hty (by simpa [hty] using hc)
    exact ⟨tokens, arena, bindings, diagnostic, id, written, hok ht, hp, hb, hty, hk, hcycle,
      hrefused id hcycle⟩

end Pins.Typing
