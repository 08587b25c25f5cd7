import Pins.Proofs.Progress

/-!
# Deciding types

Types are found on demand and kept, in an order that has nothing to do with the tree, and a
definition that is met while it is looked up is refused. The rules of `HasType` know no order.
Both agree: a bound program that was read gets its types if and only if it is well-typed by the
rules, and then the table holds, for every node but a definition list, the one type that the rules
derive (`Typing.ofArena_decides`).
-/

namespace Pins.Typing

/-- Typing decides whether a program is well-typed, and finds exactly the types that the rules
derive, for exactly the nodes that are not definition lists. -/
theorem ofArena_decides {file : String} {tokens : List Token} {arena : Arena}
    {bindings : NodeTable NodeId} (hp : parse file tokens = .ok arena)
    (hb : Binding.ofArena arena = .ok bindings) :
    ((∃ types, ofArena arena bindings = .ok types) ↔ WellTyped arena bindings) ∧
      ∀ types, ofArena arena bindings = .ok types →
        (∀ id type, types.get? id = some type ↔ HasType arena bindings id type) ∧
        ∀ id, (types.get? id).isSome = true ↔
          ∃ kind, arena.kind? id = some kind ∧ kind.isTyped = true := by
  have htree := parse_isTree hp
  have hbound := Binding.ofArena_bound htree hb
  have htyped : ∀ types, ofArena arena bindings = .ok types → Typed arena bindings types :=
    fun types ht => ofArena_typed htree hbound ht
  constructor
  · constructor
    · rintro ⟨types, ht⟩
      exact (htyped types ht).wellTyped
    · intro hw
      cases ht : ofArena arena bindings with
      | ok types => exact ⟨types, rfl⟩
      | error diagnostic => exact absurd hw (ofArena_rejects htree hbound ht).2
  · intro types ht
    refine ⟨fun id type => (htyped types ht).get?_eq_some_iff, fun id => ?_⟩
    constructor
    · intro hs
      obtain ⟨type, hf⟩ := Option.isSome_iff_exists.mp hs
      exact ((htyped types ht).sound hf).exists_kind
    · rintro ⟨kind, hk, hkind⟩
      exact (htyped types ht).total hk hkind

/-- A program with a function that calls itself and a type that is named in front of its definition
is well-typed, and its table holds the derived types. -/
theorem ofArena_decides_of_recursion :
    ∃ tokens arena bindings types,
      tokenize "test" "fun f(x: t): integer = x[f(x)]; typ t: arr[2] integer" = .ok tokens ∧
        parse "test" tokens = .ok arena ∧ Binding.ofArena arena = .ok bindings ∧
        ofArena arena bindings = .ok types ∧ WellTyped arena bindings ∧
        ∀ id type, types.get? id = some type ↔ HasType arena bindings id type := by
  have hs : (Compilation.ofSource "test"
      "fun f(x: t): integer = x[f(x)]; typ t: arr[2] integer").isOk = true := by
    decide +kernel
  obtain ⟨compiled, hc⟩ := Compilation.exists_of_isOk hs
  obtain ⟨tokens, arena, ht, hp, ha⟩ := Compilation.ofSource_eq_ok hc
  obtain ⟨bindings, types, _, _, hb, hty, _⟩ := Compilation.ofArena_eq_ok ha
  obtain ⟨hdecides, htable⟩ := ofArena_decides hp hb
  exact ⟨tokens, arena, bindings, types, ht, hp, hb, hty, hdecides.mp ⟨types, hty⟩,
    (htable types hty).1⟩

end Pins.Typing
