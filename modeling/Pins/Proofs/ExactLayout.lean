import Pins.Proofs.Labelled
import Pins.Proofs.Progress
import Pins.Proofs.Tiled

/-!
# Exact layouts

Laying out a typed program that was read stops if and only if a function overflows. Otherwise every
function has a frame at its level, tiled by its parameters and its locals, and what stands outside
all functions is kept under its name (`Layout.ofArena_exact`).

Locals and parameters are counted as far as they can be measured; in a typed program this is all of
them. The bytes of the arguments of a call are counted in an unsigned word, so the calls may not
have too many arguments. Only a program of many nodes can have such a call (`IsTree.fewArguments`).
-/

namespace Pins

namespace Arena

variable {arena : Arena} {first last : Nat} {places : List (Place × NodeId)}

/-- A forest has at least as many numbers as subtrees. -/
theorem Forest.length_le (h : arena.Forest first places last) : first + places.length ≤ last := by
  induction h with
  | nil => simp
  | cons _ _ _ hbelow _ _ ih =>
    have hle := hbelow.le
    simp only [List.length_cons]
    omega

/-- A call of a program that is not too large has few arguments. -/
theorem IsTree.fewArguments (ht : arena.IsTree) (hs : arena.size ≤ 536870912) :
    Layout.FewArguments arena := by
  intro id callee arguments hk
  obtain ⟨_, first, hsub⟩ := ht.exists_subtree hk
  obtain ⟨kind, hkind, _, _, hf⟩ := subtree_iff.mp hsub
  cases hk.symm.trans hkind
  have hlength := hf.length_le
  have hin := index_lt_size hk
  simp only [NodeKind.places, Expression.children, List.length_map] at hlength
  omega

end Arena

namespace Layout

variable {arena : Arena} {bindings : NodeTable NodeId} {types : NodeTable Ty} {id : NodeId}

/-- Every function has its frame, and what stands outside all functions has its name. -/
structure Exact (arena : Arena) (types : NodeTable Ty) (layout : Layout) : Prop where
  /-- A function nested in some functions has a frame one level above their number, and is tiled. -/
  frame : ∀ {id outer depth}, (arena.kind? id).any NodeKind.isFunction = true →
    arena.Encloses outer id → arena.Level outer depth → ∃ frame,
      layout.frames.get? id = some frame ∧ frame.level = depth + 1 ∧
        Tiled arena types layout.accesses id frame
  /-- Variables and type definitions outside all functions are labelled with their names. -/
  outside : ∀ {id definition}, arena.Encloses none id → arena.definition? id = some definition →
    (arena.kind? id).any NodeKind.isLocal = true → ∃ type size, types.get? id = some type ∧
      type.size? = some size ∧
      layout.accesses.get? id = some (.global size (.named definition.name))

/-- A function that overflows has no frame. -/
theorem LaidOut.not_overflows {layout : Layout} (h : LaidOut arena types layout)
    (htiled : ∀ {id frame}, layout.frames.get? id = some frame →
      Tiled arena types layout.accesses id frame) : ¬Overflows arena types id := by
  intro ho
  have hfunction : (arena.kind? id).any NodeKind.isFunction = true := by
    cases hk : (arena.kind? id).any NodeKind.isFunction with
    | true => rfl
    | false =>
      have hnone : arena.localsOf id = [] ∧ arena.parametersOf id = [] := by
        unfold Arena.localsOf Arena.parametersOf
        split
        · next hd =>
          rw [Arena.kind?_of_definition? hd] at hk
          cases hk
        · exact ⟨rfl, rfl⟩
      have hsmall : 2 * wordSize ≤ maxObjectSize ∧ wordSize ≤ maxObjectSize := by decide
      simp only [Overflows, hnone, bytes_nil] at ho
      omega
  obtain ⟨frame, hf⟩ := h.exists_frame hfunction
  have hframed := h.framed hf
  have hlocals := (htiled hf).locals.locals_eq
  have hparameters := (htiled hf).parameters.arguments_eq
  have hroom := hframed.locals
  have hroom' := hframed.parameters
  rcases ho with ho | ho <;> omega

/-- A variable or type definition outside all functions is kept under its name. -/
theorem LaidOut.access_outside {layout : Layout} {members : List NodeId} {next : Nat}
    {definition : Definition} (h : LaidOut arena types layout)
    (hlabelled : Labelled arena members layout next) (he : arena.Encloses none id)
    (hd : arena.definition? id = some definition)
    (hlocal : (arena.kind? id).any NodeKind.isLocal = true) :
    ∃ type size, types.get? id = some type ∧ type.size? = some size ∧
      layout.accesses.get? id = some (.global size (.named definition.name)) := by
  have hk := Arena.kind?_of_definition? hd
  have hkeeps : (arena.kind? id).any NodeKind.keepsValue = true := by
    rw [hk, Option.any_some] at hlocal ⊢
    cases definition <;> first | rfl | cases hlocal
  obtain ⟨hsome, hmeasures⟩ := h.access id (Arena.index_lt_size hk)
  obtain ⟨access, ha⟩ := Option.isSome_iff_exists.mp (hsome.trans hkeeps)
  obtain ⟨size, label, rfl⟩ := h.outside he ha
  obtain ⟨type, htype, hsize⟩ := hmeasures _ ha
  obtain ⟨_, found, hfound, rfl⟩ := hlabelled.access ha
  cases hd.symm.trans hfound
  exact ⟨type, size, htype, hsize, ha⟩

/-- A layout with tiled frames and the right labels is exact. -/
theorem LaidOut.exact {layout : Layout} {members : List NodeId} {next : Nat}
    (h : LaidOut arena types layout) (ht : arena.IsTree)
    (hlabelled : Labelled arena members layout next)
    (htiled : ∀ {id frame}, layout.frames.get? id = some frame →
      Tiled arena types layout.accesses id frame) : Exact arena types layout := by
  refine ⟨fun {id outer depth} hfunction he hdepth => ?_, h.access_outside hlabelled⟩
  obtain ⟨frame, hf⟩ := h.exists_frame hfunction
  exact ⟨frame, hf, (h.framed hf).level.unique ht (.inside he hdepth), htiled hf⟩

/-- Laying out a typed program that was read stops exactly if a function overflows, and what it
finds otherwise is exact. The locals of a function are all variables and type definitions that stand
in it and in no function nested in it, each once, and all of them have a size, as the parameters
do. -/
theorem ofArena_exact {file : String} {tokens : List Token} {labels : LabelSupply}
    (hp : parse file tokens = .ok arena) (hb : Binding.ofArena arena = .ok bindings)
    (ht : Typing.ofArena arena bindings = .ok types) (hfew : FewArguments arena) :
    ((∃ diagnostic, ofArena arena bindings types labels = .error diagnostic) ↔
        ∃ id, Overflows arena types id) ∧
      (∀ layout left, ofArena arena bindings types labels = .ok (layout, left) →
        Exact arena types layout) ∧
      (∀ id node, (arena.kind? id).any NodeKind.isFunction = true →
        (node ∈ arena.localsOf id ↔ arena.Encloses (some id) node ∧
          (arena.kind? node).any NodeKind.isLocal = true)) ∧
      (∀ id, (arena.localsOf id).Nodup) ∧
      ∀ id kind, arena.kind? id = some kind → kind.keepsValue = true →
        Measured types Ty.size? id ∧ Measured types Ty.argumentSize? id := by
  have htree := parse_isTree hp
  have hsized := (Typing.ofArena_typed htree (Binding.ofArena_bound htree hb) ht).sized htree
  refine ⟨⟨?_, ?_⟩, ?_, fun id node => htree.mem_localsOf_iff, htree.nodup_localsOf, ?_⟩
  · rintro ⟨diagnostic, hl⟩
    have hblames := ofArena_blames htree hl (ofArena_refuses htree hsized hl)
    exact hblames.resolve_right (not_not_intro hfew)
  · rintro ⟨id, ho⟩
    cases hl : ofArena arena bindings types labels with
    | error diagnostic => exact ⟨diagnostic, rfl⟩
    | ok laid =>
      have hlaid := ofArena_laidOut htree hsized hl
      exact absurd ho (hlaid.not_overflows fun hf => ofArena_tiled htree hl hf)
  · intro layout left hl
    have ⟨root, hroot, _, hs⟩ := htree
    obtain ⟨members, hk⟩ := hs.exists_members
    have hdefinitions : ∀ member ∈ members, (arena.definition? member).isSome := by
      intro member hm
      obtain ⟨_, hsub, _, _⟩ := hs.child hk (List.mem_map_of_mem hm)
      exact hsub.isSome_definition?
    obtain ⟨_, hlabelled⟩ := ofArena_labelled hk hdefinitions hroot hl
    exact (ofArena_laidOut htree hsized hl).exact htree hlabelled fun hf =>
      ofArena_tiled htree hl hf
  · intro id kind hk hkeeps
    have hmeasured := hsized.storage (Arena.index_lt_size hk) hk hkeeps
    exact ⟨hmeasured, hmeasured.argument⟩

/-- A program with a nested function, an array without elements and definitions in two where clauses
has an exact layout. -/
theorem ofArena_exact_of_nested :
    ∃ tokens arena bindings types layout left,
      tokenize "test" ("fun f(a: integer, b: arr[3] integer): integer = (g(a) \x7bwhere " ++
        "typ t: arr[0] logical; var x: arr[2] integer; " ++
        "fun g(c: integer): integer = c \x7bwhere var y: string\x7d\x7d); var z: t; " ++
        "typ t: integer") = .ok tokens ∧
        parse "test" tokens = .ok arena ∧ Binding.ofArena arena = .ok bindings ∧
        Typing.ofArena arena bindings = .ok types ∧ FewArguments arena ∧
        ofArena arena bindings types .full = .ok (layout, left) ∧
        (∀ id, ¬Overflows arena types id) ∧ Exact arena types layout := by
  obtain ⟨compiled, hc, hsize⟩ : ∃ compiled, Compilation.ofSource "test"
      ("fun f(a: integer, b: arr[3] integer): integer = (g(a) \x7bwhere " ++
        "typ t: arr[0] logical; var x: arr[2] integer; " ++
        "fun g(c: integer): integer = c \x7bwhere var y: string\x7d\x7d); var z: t; " ++
        "typ t: integer") = .ok compiled ∧ compiled.program.arena.size ≤ 536870912 :=
    Compilation.exists_of_any (by decide +kernel)
  obtain ⟨tokens, arena, htokens, hp, ha⟩ := Compilation.ofSource_eq_ok hc
  obtain ⟨bindings, types, layout, left, hb, ht, hl, _, he⟩ := Compilation.ofArena_eq_ok ha
  rw [he] at hsize
  have hfew := (parse_isTree hp).fewArguments hsize
  obtain ⟨hdecides, hexact, _⟩ :=
    @ofArena_exact arena bindings types "test" tokens .full hp hb ht hfew
  have hsmall : ∀ id, ¬Overflows arena types id := by
    intro id ho
    obtain ⟨diagnostic, herror⟩ := hdecides.mpr ⟨id, ho⟩
    cases hl.symm.trans herror
  exact ⟨tokens, arena, bindings, types, layout, left, htokens, hp, hb, ht, hfew, hl, hsmall,
    hexact layout left hl⟩

end Layout

end Pins
