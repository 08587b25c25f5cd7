import Pins.Proofs.Derivable

/-!
# The parser reads exactly the grammar

The tokens of a text are read to an arena if and only if they are derived from the grammar, and the
arena then holds the tree of the derivation below its root, which is the only one that the grammar
gives the tokens and the only one that the arena holds (`parse_exact`).

The tokens of a text are those that end with their only end token, with runs of digits for integers
(`Lexed`). Every text that can be cut into tokens has such ones (`lexed_of_tokenize`).
-/

namespace Pins

/-- The stream of tokens that a text was cut into is these tokens. -/
theorem Parser.tokens_start (file : String) {tokens : List Token} (h : Lexed tokens) :
    (Parser.start file tokens).tokens = tokens := by
  have hmissing : TokenStream.missingEnd file tokens = [] := by
    have hlast := h.getLast?_kind
    unfold TokenStream.missingEnd
    cases hl : tokens.getLast? with
    | none => simp [hl] at hlast
    | some last =>
      rw [hl] at hlast
      exact if_pos (Option.some.inj hlast)
  obtain ⟨first, others, rfl⟩ := List.exists_cons_of_ne_nil h.ne_nil
  simp [Parser.start, TokenStream.ofTokens, hmissing, ParserState.tokens]

/-- A program that was read is derived, and its arena holds the tree of the derivation. -/
theorem exists_derives_of_parse {file : String} {tokens : List Token} {arena : Arena}
    (hl : Lexed tokens) (h : parse file tokens = .ok arena) :
    ∃ program, Symbol.source.Derives tokens [program] ∧ arena.HoldsProgram program := by
  have hstart := Parser.tokens_start file hl
  unfold parse at h
  split at h
  · next root state hp =>
    cases h
    rw [← hstart] at hl
    obtain ⟨program, hd, hh⟩ := (Parser.program_derives hl).of_ok hp
    rw [hstart] at hd
    exact ⟨program, hd, root, rfl, hh.of_kept fun _ _ hk => hk⟩
  · cases h

/-- A program that is derived is read, and its arena holds the tree of the derivation. -/
theorem exists_parse_of_derives {file : String} {tokens : List Token} {program : SyntaxTree}
    (hl : Lexed tokens) (h : Symbol.source.Derives tokens [program]) :
    ∃ arena, parse file tokens = .ok arena ∧ arena.HoldsProgram program := by
  have hstart := Parser.tokens_start file hl
  have hread : Parser.Readable .source tokens [program] := Parser.Readable.of_derives h
  have hruns := hread (hstart.symm ▸ hl) hstart
  have hs : (Parser.start file tokens).stream.Ended := TokenStream.ended_ofTokens file tokens
  have hrefuses := Parser.program_runs hs
  unfold parse
  split
  · next root state hp =>
    exact ⟨_, rfl, root, rfl, (hruns.of_ok hp).of_kept fun _ _ hk => hk⟩
  · next diagnostic state hp =>
    have hexhausts : Parser.Exhausts diagnostic.fault := by
      simpa only [Pass.Runs, hp] using hruns
    obtain ⟨message, hfault⟩ := hexhausts
    have hrefused : Parser.Refuses diagnostic.fault := by
      simpa only [Pass.Runs, hp] using hrefuses
    rw [hfault] at hrefused
    exact hrefused.elim

/-- The grammar gives a program at most one tree. -/
theorem Symbol.Derives.program_unique {tokens : List Token} {program other : SyntaxTree}
    (h : Symbol.source.Derives tokens [program]) (hl : Lexed tokens)
    (h' : Symbol.source.Derives tokens [other]) : program = other := by
  obtain ⟨arena, hp, hholds⟩ := @exists_parse_of_derives "" _ _ hl h
  obtain ⟨arena', hp', hholds'⟩ := @exists_parse_of_derives "" _ _ hl h'
  cases hp.symm.trans hp'
  exact hholds.unique hholds'

/-- Two differences in a row are derived from the left. -/
theorem Symbol.Derives.differences {a first b second c : Token} (ha : a.kind = .identifier)
    (hfirst : first.kind = .dash) (hb : b.kind = .identifier) (hsecond : second.kind = .dash)
    (hc : c.kind = .identifier) :
    Symbol.expression.Derives [a, first, b, second, c]
      [.node (.binary .sub) [.node (.binary .sub) [.node (.name a.value) [],
        .node (.name b.value) []], .node (.name c.value) []]] := by
  have hoperand : ∀ token : Token, token.kind = .identifier →
      (Symbol.operation .multiplicative).Derives [token] [.node (.name token.value) []] :=
    fun token hk => .tighter rfl (.tighter rfl (.operand (.name hk)))
  have hminus : ∀ token : Token, token.kind = .dash →
      Precedence.additive.operator? token.kind = some .sub := fun token hk => by rw [hk]; rfl
  have hinner := Symbol.Derives.chained (by decide) (hminus first hfirst) rfl
    (.tighter rfl (hoperand a ha)) (hoperand b hb)
  have houter := Symbol.Derives.chained (by decide) (hminus second hsecond) rfl hinner
    (hoperand c hc)
  exact .operation (.tighter rfl (.tighter rfl (.tighter rfl houter)))

/-- The tokens of a text are read if and only if they are derived from the grammar. What is then
held below the root of the arena is the tree of the derivation, in which operators bind as their
levels ask for. No other tree is derived from the grammar or held below the root. -/
theorem parse_exact {file : String} {tokens : List Token} (hl : Lexed tokens) :
    ((∃ arena, parse file tokens = .ok arena) ↔
      ∃ program, Symbol.source.Derives tokens [program]) ∧
    ∀ arena program, parse file tokens = .ok arena → Symbol.source.Derives tokens [program] →
      arena.HoldsProgram program ∧ program.Ordered ∧
        ∀ other, Symbol.source.Derives tokens [other] ∨ arena.HoldsProgram other →
          other = program := by
  constructor
  · constructor
    · rintro ⟨arena, hp⟩
      obtain ⟨program, hd, _⟩ := exists_derives_of_parse hl hp
      exact ⟨program, hd⟩
    · rintro ⟨program, hd⟩
      obtain ⟨arena, hp, _⟩ := exists_parse_of_derives hl hd
      exact ⟨arena, hp⟩
  · intro arena program hp hd
    obtain ⟨arena', hp', hholds⟩ := exists_parse_of_derives hl hd
    cases hp.symm.trans hp'
    refine ⟨hholds, hd.ordered program (List.mem_singleton.mpr rfl), fun other ho => ?_⟩
    rcases ho with hderived | hheld
    · exact hderived.program_unique hl hd
    · exact hheld.unique hholds

/-- Of two differences in a row, the first one is subtracted from. -/
theorem parse_exact_of_differences :
    ∃ tokens arena, tokenize "test" "fun f(): integer = a - b - c" = .ok tokens ∧ Lexed tokens ∧
      parse "test" tokens = .ok arena ∧
      arena.HoldsProgram (.node .definitions [.node (.function "f") [.node (.atomType .integer) [],
        .node (.binary .sub) [.node (.binary .sub) [.node (.name "a") [], .node (.name "b") []],
          .node (.name "c") []]]]) := by
  have hread : (tokenize "test" "fun f(): integer = a - b - c").toOption.map
      (List.map fun token => (token.kind, token.value)) =
        some [(.funWord, "fun"), (.identifier, "f"), (.openParen, "("), (.closeParen, ")"),
          (.colon, ":"), (.integerType, "integer"), (.assignment, "="), (.identifier, "a"),
          (.dash, "-"), (.identifier, "b"), (.dash, "-"), (.identifier, "c"),
          (.eof, "EOF")] := by
    decide +kernel
  cases ht : tokenize "test" "fun f(): integer = a - b - c" with
  | error diagnostic =>
    rw [ht] at hread
    cases hread
  | ok tokens =>
    rw [ht] at hread
    have hl := lexed_of_tokenize ht
    simp only [Except.toOption, Option.map_some, Option.some.injEq, List.map_eq_cons_iff,
      List.map_eq_nil_iff, Prod.mk.injEq] at hread
    obtain ⟨word, _, rfl, hword, name, _, rfl, hname, opened, _, rfl, hopened, closed, _, rfl,
      hclosed, colon, _, rfl, hcolon, type, _, rfl, htype, mark, _, rfl, hmark, a, _, rfl, ha,
      first, _, rfl, hfirst, b, _, rfl, hb, second, _, rfl, hsecond, c, _, rfl, hc, last, _, rfl,
      hlast, rfl⟩ := hread
    have hbody := Symbol.Derives.differences ha.1 hfirst.1 hb.1 hsecond.1 hc.1
    have hresult : Symbol.type.Derives [type] [.node (.atomType .integer) []] :=
      .atomType (by rw [htype.1]; rfl)
    have hfunction := Symbol.Derives.function
      (by simp [hword, hname, hopened, hclosed, hcolon, hmark] :
        [word, name, opened, closed, colon, mark].map Token.kind =
          [.funWord, .identifier, .openParen, .closeParen, .colon, .assignment])
      .absent hresult hbody
    have hsource := Symbol.Derives.program hlast.1 (.last hfunction)
    rw [hname.2, ha.2, hb.2, hc.2] at hsource
    obtain ⟨hiff, hholds⟩ := @parse_exact "test" _ hl
    obtain ⟨arena, hp⟩ := hiff.mpr ⟨_, hsource⟩
    exact ⟨_, arena, rfl, hl, hp, (hholds arena _ hp hsource).1⟩

end Pins
