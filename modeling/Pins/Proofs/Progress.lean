import Pins.Compilation
import Pins.Proofs.Lowered
import Pins.Proofs.Parsed

/-!
# Progress of the passes

A compilation ends with code or with a fault of the program, and never because a pass did not find
what it asks an earlier one for. Each pass has its own faults: reading those of tokens, binding
those of names, typing those of types, layout those of sizes. Lowering has none.
-/

namespace Pins.Compilation

variable {arena : Arena} {file source : String} {compiled : Compilation} {diagnostic : Diagnostic}

/-- What the passes found out about a program that was compiled. -/
theorem ofArena_eq_ok (h : ofArena arena = .ok compiled) :
    ∃ bindings types layout labels, Binding.ofArena arena = .ok bindings ∧
      Typing.ofArena arena bindings = .ok types ∧
      Layout.ofArena arena bindings types .full = .ok (layout, labels) ∧
      Lowering.ofProgram ⟨arena, bindings, types, layout⟩ labels =
        .ok (compiled.trees, compiled.chunks) ∧
      compiled.program = ⟨arena, bindings, types, layout⟩ := by
  simp only [ofArena, bind, Except.bind, pure, Except.pure] at h
  cases hb : Binding.ofArena arena with
  | error found => simp [hb] at h
  | ok bindings =>
    cases ht : Typing.ofArena arena bindings with
    | error found => simp [hb, ht] at h
    | ok types =>
      cases hl : Layout.ofArena arena bindings types .full with
      | error found => simp [hb, ht, hl] at h
      | ok laid =>
        cases hp : Lowering.ofProgram ⟨arena, bindings, types, laid.1⟩ laid.2 with
        | error found => simp [hb, ht, hl, hp] at h
        | ok lowered =>
          simp only [hb, ht, hl, hp, Except.ok.injEq] at h
          subst h
          exact ⟨bindings, types, laid.1, laid.2, rfl, ht, hl, hp, rfl⟩

/-- The diagnostic of a program that was read comes from one of the passes behind the reading. -/
theorem ofArena_eq_error (h : ofArena arena = .error diagnostic) :
    Binding.ofArena arena = .error diagnostic ∨
    ∃ bindings, Binding.ofArena arena = .ok bindings ∧
      (Typing.ofArena arena bindings = .error diagnostic ∨
      ∃ types, Typing.ofArena arena bindings = .ok types ∧
        (Layout.ofArena arena bindings types .full = .error diagnostic ∨
        ∃ layout labels, Layout.ofArena arena bindings types .full = .ok (layout, labels) ∧
          Lowering.ofProgram ⟨arena, bindings, types, layout⟩ labels = .error diagnostic)) := by
  simp only [ofArena, bind, Except.bind, pure, Except.pure] at h
  cases hb : Binding.ofArena arena with
  | error found => simpa [hb] using h
  | ok bindings =>
    refine .inr ⟨bindings, rfl, ?_⟩
    cases ht : Typing.ofArena arena bindings with
    | error found => simpa [hb, ht] using h
    | ok types =>
      refine .inr ⟨types, rfl, ?_⟩
      cases hl : Layout.ofArena arena bindings types .full with
      | error found => simpa [hb, ht, hl] using h
      | ok laid =>
        refine .inr ⟨laid.1, laid.2, rfl, ?_⟩
        cases hp : Lowering.ofProgram ⟨arena, bindings, types, laid.1⟩ laid.2 with
        | error found => simpa [hb, ht, hl, hp] using h
        | ok lowered => simp [hb, ht, hl, hp] at h

/-- A source that was compiled was cut into tokens and read. -/
theorem ofSource_eq_ok (h : ofSource file source = .ok compiled) :
    ∃ tokens arena, tokenize file source = .ok tokens ∧ parse file tokens = .ok arena ∧
      ofArena arena = .ok compiled := by
  simp only [ofSource, bind, Except.bind] at h
  cases ht : tokenize file source with
  | error found => simp [ht] at h
  | ok tokens =>
    cases hp : parse file tokens with
    | error found => simp [ht, hp] at h
    | ok arena => exact ⟨tokens, arena, rfl, hp, by simpa [ht, hp] using h⟩

/-- The diagnostic of a source comes from its text, from its tokens or from the program. -/
theorem ofSource_eq_error (h : ofSource file source = .error diagnostic) :
    tokenize file source = .error diagnostic ∨
    ∃ tokens, tokenize file source = .ok tokens ∧ (parse file tokens = .error diagnostic ∨
      ∃ arena, parse file tokens = .ok arena ∧ ofArena arena = .error diagnostic) := by
  simp only [ofSource, bind, Except.bind] at h
  cases ht : tokenize file source with
  | error found => simpa [ht] using h
  | ok tokens =>
    refine .inr ⟨tokens, rfl, ?_⟩
    cases hp : parse file tokens with
    | error found => simpa [ht, hp] using h
    | ok arena => exact .inr ⟨arena, rfl, by simpa [ht, hp] using h⟩

/-- A source that compiles has a compilation. -/
theorem exists_of_isOk (h : (ofSource file source).isOk = true) :
    ∃ compiled, ofSource file source = .ok compiled := by
  cases hc : ofSource file source with
  | ok compiled => exact ⟨compiled, rfl⟩
  | error diagnostic => simp [hc, Except.isOk, Except.toBool] at h

/-- A source has a compilation with a property if computing it finds so. -/
theorem exists_of_any {holds : Compilation → Prop} [DecidablePred holds]
    (h : (ofSource file source).toOption.any (fun compiled => decide (holds compiled)) = true) :
    ∃ compiled, ofSource file source = .ok compiled ∧ holds compiled := by
  cases hc : ofSource file source with
  | ok compiled => exact ⟨compiled, rfl, by simpa [hc, Except.toOption] using h⟩
  | error diagnostic => simp [hc, Except.toOption] at h

/-- What lowering gets to know about a program that was read is complete. -/
theorem prepared {bindings : NodeTable NodeId} {types : NodeTable Ty} {layout : Layout}
    {labels rest : LabelSupply} (h : arena.IsTree) (hb : Binding.ofArena arena = .ok bindings)
    (ht : Typing.ofArena arena bindings = .ok types)
    (hl : Layout.ofArena arena bindings types labels = .ok (layout, rest)) :
    Lowering.Prepared ⟨arena, bindings, types, layout⟩ := by
  have hbound := Binding.ofArena_bound h hb
  have htyped := Typing.ofArena_typed h hbound ht
  exact ⟨h, hbound, Binding.ofArena_lexical h hb, htyped,
    Layout.ofArena_laidOut h (htyped.sized h) hl⟩

/-- A program that was read is compiled, or one of the passes finds one of its own faults. -/
theorem ofArena_refuses (h : arena.IsTree) (he : ofArena arena = .error diagnostic) :
    Binding.Refuses diagnostic.fault ∨ Typing.Refuses diagnostic.fault ∨
      Layout.Refuses diagnostic.fault := by
  rcases ofArena_eq_error he with
    hb | ⟨bindings, hb, ht | ⟨types, ht, hl | ⟨layout, labels, hl, hp⟩⟩⟩
  · exact .inl (Binding.ofArena_refuses h hb)
  · exact .inr (.inl (Typing.ofArena_refuses h (Binding.ofArena_bound h hb) ht))
  · have htyped := Typing.ofArena_typed h (Binding.ofArena_bound h hb) ht
    exact .inr (.inr (Layout.ofArena_refuses h (htyped.sized h) hl))
  · obtain ⟨_, _, hok, _⟩ := Lowering.ofProgram_lowered labels (prepared h hb ht hl)
    cases hok.symm.trans hp

/-- No compilation ends because a pass did not do its work. Binding a program that was read stops
only for faults of names. If it is bound, typing does not stop for a name; if it is typed, layout
stops only for a frame that is too large; and if it is laid out, it is lowered. -/
theorem phases_progress :
    (∀ file source diagnostic, ofSource file source = .error diagnostic →
      ∀ message, diagnostic.fault ≠ .internalError message) ∧
    ∀ file tokens arena, parse file tokens = .ok arena →
      (∀ diagnostic, Binding.ofArena arena = .error diagnostic →
        Binding.Refuses diagnostic.fault) ∧
      ∀ bindings, Binding.ofArena arena = .ok bindings →
        (∀ diagnostic, Typing.ofArena arena bindings = .error diagnostic → ∀ text,
          diagnostic.fault ≠ .undefinedSymbol text ∧ diagnostic.fault ≠ .undefinedType text ∧
            diagnostic.fault ≠ .internalError text) ∧
        ∀ types, Typing.ofArena arena bindings = .ok types → ∀ labels,
          (∀ diagnostic, Layout.ofArena arena bindings types labels = .error diagnostic →
            ∃ name, diagnostic.fault = .frameTooLarge name) ∧
          ∀ layout rest, Layout.ofArena arena bindings types labels = .ok (layout, rest) →
            ∃ trees chunks, Lowering.ofProgram ⟨arena, bindings, types, layout⟩ rest =
              .ok (trees, chunks) := by
  constructor
  · intro file source diagnostic h message hm
    rcases ofSource_eq_error h with ht | ⟨tokens, _, hp | ⟨arena, hp, ha⟩⟩
    · have hr := tokenize_refuses ht
      simp [hm, Lexer.Refuses] at hr
    · have hr := parse_refuses hp
      simp [hm, Parser.Refuses] at hr
    · have hr := ofArena_refuses (parse_isTree hp) ha
      simp [hm, Binding.Refuses, Typing.Refuses, Layout.Refuses] at hr
  · intro file tokens arena hp
    have htree := parse_isTree hp
    refine ⟨fun diagnostic hb => Binding.ofArena_refuses htree hb, fun bindings hb => ?_⟩
    have hbound := Binding.ofArena_bound htree hb
    constructor
    · intro diagnostic ht text
      have hr := Typing.ofArena_refuses htree hbound ht
      refine ⟨?_, ?_, ?_⟩
      all_goals
        intro hf
        simp [hf, Typing.Refuses] at hr
    · intro types ht labels
      have htyped := Typing.ofArena_typed htree hbound ht
      constructor
      · intro diagnostic hl
        have hr := Layout.ofArena_refuses htree (htyped.sized htree) hl
        cases hf : diagnostic.fault <;> simp [hf, Layout.Refuses] at hr
        exact ⟨_, rfl⟩
      · intro layout rest hl
        obtain ⟨trees, chunks, hok, _⟩ :=
          Lowering.ofProgram_lowered rest (prepared htree hb ht hl)
        exact ⟨trees, chunks, hok⟩

/-- Two sources at work: one that is refused, and one whose program passes every phase. -/
theorem phases_progress_of_sources :
    (∃ diagnostic, ofSource "test" "fun f" = .error diagnostic ∧
      ∀ message, diagnostic.fault ≠ .internalError message) ∧
    ∃ tokens arena bindings types layout rest trees chunks,
      tokenize "test" "fun f(x: integer): integer = x + 1" = .ok tokens ∧
        parse "test" tokens = .ok arena ∧ Binding.ofArena arena = .ok bindings ∧
        Typing.ofArena arena bindings = .ok types ∧
        Layout.ofArena arena bindings types .full = .ok (layout, rest) ∧
        Lowering.ofProgram ⟨arena, bindings, types, layout⟩ rest = .ok (trees, chunks) := by
  constructor
  · have hr : (ofSource "test" "fun f").isOk = false := by decide +kernel
    cases hs : ofSource "test" "fun f" with
    | ok compiled => simp [hs, Except.isOk, Except.toBool] at hr
    | error diagnostic => exact ⟨diagnostic, rfl, phases_progress.1 _ _ _ hs⟩
  · have hs : (ofSource "test" "fun f(x: integer): integer = x + 1").isOk = true := by
      decide +kernel
    obtain ⟨compiled, hc⟩ := exists_of_isOk hs
    obtain ⟨tokens, arena, ht, hp, ha⟩ := ofSource_eq_ok hc
    obtain ⟨bindings, types, layout, labels, hb, hty, hl, _, _⟩ := ofArena_eq_ok ha
    obtain ⟨trees, chunks, hok⟩ :=
      (((phases_progress.2 "test" tokens arena hp).2 bindings hb).2 types hty .full).2 layout
        labels hl
    exact ⟨tokens, arena, bindings, types, layout, labels, trees, chunks, ht, hp, hb, hty, hl, hok⟩

end Pins.Compilation
