import Pins.Proofs.Progress

/-!
# Deciding scopes

Binding walks the tree with one stack of scopes, which it fills as it goes. The rules of
`Arena.Resolves` know neither a walk nor a stack. Both agree: a program that was read is bound if
and only if it is well-scoped, and then its bindings are exactly what its references refer to
(`Binding.ofArena_decides_scopes`).
-/

namespace Pins.Binding

/-- Binding decides whether a program is well-scoped. It binds exactly the references of the
program, each to the definition that it refers to, and never a call of a built-in routine. -/
theorem ofArena_decides_scopes {file : String} {tokens : List Token} {arena : Arena}
    (hp : parse file tokens = .ok arena) :
    ((∃ bindings, ofArena arena = .ok bindings) ↔ arena.WellScoped) ∧
      ∀ bindings, ofArena arena = .ok bindings →
        (∀ id target, bindings.get? id = some target ↔ arena.Resolves id target) ∧
        (∀ id, (bindings.get? id).isSome = true ↔
          ∃ kind, arena.kind? id = some kind ∧ kind.reference?.isSome = true) ∧
        ∀ id callee arguments, arena.kind? id = some (.expression (.call callee arguments)) →
          Builtin.isRoutine callee = true → bindings.get? id = none := by
  have htree := parse_isTree hp
  have hsettled : ∀ bindings, ofArena arena = .ok bindings → ∀ id,
      Settled arena id (bindings.get? id) := fun bindings hb => ofArena_settled htree hb
  refine ⟨⟨?_, fun hw => ?_⟩, fun bindings hb =>
    ⟨fun id => (hsettled bindings hb id).binds, ?_, ?_⟩⟩
  · rintro ⟨bindings, hb⟩
    refine ⟨fun hk hl => (hsettled bindings hb _).distinct hk hl, fun {id} {kind} hk hr => ?_⟩
    obtain ⟨target, ht⟩ := Option.isSome_iff_exists.mp ((hsettled bindings hb id).resolved hk hr)
    exact ⟨target, ((hsettled bindings hb id).binds target).mp ht⟩
  · cases hb : ofArena arena with
    | ok bindings => exact ⟨bindings, rfl⟩
    | error diagnostic => exact absurd hw (ofArena_rejects htree hb).2
  · intro id
    constructor
    · intro hs
      obtain ⟨target, ht⟩ := Option.isSome_iff_exists.mp hs
      obtain ⟨kind, name, kinds, _, _, hk, hr, _⟩ := ((hsettled bindings hb id).binds target).mp ht
      exact ⟨kind, hk, by rw [hr]; rfl⟩
    · rintro ⟨kind, hk, hr⟩
      exact (hsettled bindings hb id).resolved hk hr
  · intro id callee arguments hk hroutine
    cases hg : bindings.get? id with
    | none => rfl
    | some target =>
      obtain ⟨kind, name, kinds, _, _, hk', hr, _⟩ :=
        ((hsettled bindings hb id).binds target).mp hg
      cases hk.symm.trans hk'
      simp [NodeKind.reference?, hroutine] at hr

/-- A program in which the definitions of a where clause hide those around it, in which two
functions call each other, and in which a function is named like a built-in routine is well-scoped,
and its bindings are what its references refer to. -/
theorem ofArena_decides_scopes_of_shadowing :
    ∃ tokens arena bindings,
      tokenize "test" ("fun f(x: t): integer = g(x) + x \x7bwhere var x: integer\x7d; " ++
        "fun g(x: t): integer = f(x) + print_int(x); " ++
        "fun print_int(t: t): t = t; typ t: integer") = .ok tokens ∧
        parse "test" tokens = .ok arena ∧ ofArena arena = .ok bindings ∧ arena.WellScoped ∧
        ∀ id target, bindings.get? id = some target ↔ arena.Resolves id target := by
  have hs : (Compilation.ofSource "test"
      ("fun f(x: t): integer = g(x) + x \x7bwhere var x: integer\x7d; " ++
        "fun g(x: t): integer = f(x) + print_int(x); " ++
        "fun print_int(t: t): t = t; typ t: integer")).isOk = true := by
    decide +kernel
  obtain ⟨compiled, hc⟩ := Compilation.exists_of_isOk hs
  obtain ⟨tokens, arena, ht, hp, ha⟩ := Compilation.ofSource_eq_ok hc
  obtain ⟨bindings, _, _, _, hb, _⟩ := Compilation.ofArena_eq_ok ha
  obtain ⟨hdecides, htable⟩ := ofArena_decides_scopes hp
  exact ⟨tokens, arena, bindings, ht, hp, hb, hdecides.mp ⟨bindings, hb⟩, (htable bindings hb).1⟩

end Pins.Binding
