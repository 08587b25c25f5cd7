import Pins.Proofs.Consumed
import Pins.Proofs.Precedence

/-!
# What is read can be derived

Whatever a function of the parser reads, the tokens it consumed are derived from the symbol that it
reads, and the tree of the derivation stands below the node that it returns.

Operators need more than that. An operation is read where only operators count that bind tighter
than some power, and it ends at a token that does not. `Operates` therefore names a level for what
was read so far, above the power, and says that the next token holds no tighter than that level
allows. A longer operation keeps this, since the right operand was read up to such a token, too.
-/

namespace Pins.Parser

open Pass (Any)

variable {base state after : ParserState} {symbol : Symbol} {power : BindingPower}
  {ids : List NodeId} {id left : NodeId} {token : Token} {fuel : Nat}

/-- What was read is derived from a symbol. -/
def Reaches (symbol : Symbol) (base : ParserState) (ids : List NodeId) (after : ParserState) :
    Prop :=
  ∃ tokens trees, symbol.Derives tokens trees ∧ Consumes base tokens ids trees after

theorem Reaches.lexed (h : Reaches symbol base ids after) : Lexed after.tokens := by
  obtain ⟨_, _, _, hc⟩ := h
  exact hc.lexed

/-- Below one node stands one tree. -/
theorem Reaches.exists_tree (h : Reaches symbol base [id] after) :
    ∃ tokens tree, symbol.Derives tokens [tree] ∧ Consumes base tokens [id] [tree] after := by
  obtain ⟨tokens, trees, hd, hc⟩ := h
  have hsingle : ∃ tree, trees = [tree] := by
    cases hc.holds with
    | cons _ _ hrest =>
      cases hrest
      exact ⟨_, rfl⟩
  obtain ⟨tree, rfl⟩ := hsingle
  exact ⟨tokens, tree, hd, hc⟩

/-- An expected token was consumed. -/
theorem expect_any {kind : TokenKind} (hl : Lexed state.tokens) (hk : kind ≠ .eof) :
    (expect kind).Runs Any state fun token after =>
      token.kind = kind ∧ Consumes state [token] [] [] after :=
  (expect_consumes hl hk (.inr fun _ => trivial)).mono fun _ _ h => h.2

theorem expectBut_any {kind : TokenKind} {message : String} (hl : Lexed state.tokens)
    (hk : kind ≠ .eof) :
    (expectBut kind message).Runs Any state fun token after =>
      token.kind = kind ∧ Consumes state [token] [] [] after :=
  (expectBut_consumes hl hk (.inr fun _ => trivial)).mono fun _ _ h => h.2

/-- Items with marks between them are read one by one. -/
theorem separated_reaches {item : Parse NodeId} {others : Parse (List NodeId)} {mark : TokenKind}
    (hmark : mark ≠ .eof)
    (hitem : item.Runs Any state fun id after => Reaches symbol state [id] after)
    (hothers : ∀ {state : ParserState}, Lexed state.tokens →
      others.Runs Any state fun ids after => Reaches (.separated symbol mark) state ids after) :
    (separated item others mark).Runs Any state fun ids after =>
      Reaches (.separated symbol mark) state ids after := by
  simp only [separated, currentKind, current, Pass.runs_bind, Pass.runs_get, Pass.runs_pure]
  refine hitem.mono fun first s₁ h₁ => ?_
  obtain ⟨tokens, trees, hd, hc⟩ := h₁
  split
  · next hk =>
    simp only [Pass.runs_bind, Pass.runs_pure]
    refine (advance_consumes hc.lexed (hk ▸ hmark)).mono fun between s₂ h₂ => ?_
    refine (hothers h₂.2.lexed).mono fun ids s₃ h₃ => ?_
    obtain ⟨rest, following, hd', hc'⟩ := h₃
    refine ⟨_, _, .more (h₂.1 ▸ hk) hd hd', ?_⟩
    simpa using (hc.marks h₂.2).trans hc'
  · exact ⟨tokens, trees, .last hd, hc⟩

/-- The word of an atomic type begins one. -/
theorem exists_atom {kind : TokenKind} (h : Grammar.pins.type? kind = some .atom) :
    Atom.ofWord? kind = some (.ofKind kind) := by
  cases kind <;> simp_all [Grammar.pins, Atom.ofWord?, Atom.ofKind]

/-- Written types are derived. -/
theorem types_reach (fuel : Nat) :
    (∀ {state : ParserState}, Lexed state.tokens →
      (typeWithin .pins fuel).Runs Any state fun id after => Reaches .type state [id] after) ∧
    (∀ {state : ParserState}, Lexed state.tokens →
      (arrayTypeWithin .pins fuel).Runs Any state fun id after =>
        Reaches .type state [id] after) := by
  induction fuel with
  | zero => exact ⟨fun _ => trivial, fun _ => trivial⟩
  | succ fuel ih =>
    constructor
    · intro state hl
      simp only [typeWithin, currentKind, current, Pass.runs_bind, Pass.runs_get, Pass.runs_pure]
      cases hform : Grammar.pins.type? state.stream.current.kind with
      | none => trivial
      | some form =>
        cases form with
        | name =>
          simp only [typeName, Pass.runs_bind]
          refine (expect_any hl (by decide)).mono fun token s₁ h₁ => ?_
          refine (add_consumes h₁.2).mono fun id s₂ h₂ => ?_
          have hderives : Symbol.type.Derives [token] [.node (.namedType token.value) []] :=
            .namedType h₁.1
          exact ⟨_, _, hderives, h₂.1⟩
        | atom =>
          have hk : state.stream.current.kind ≠ .eof := fun he => by
            simp [he, Grammar.pins] at hform
          simp only [atomType, Pass.runs_bind]
          refine (advance_consumes hl hk).mono fun token s₁ h₁ => ?_
          refine (add_consumes h₁.2).mono fun id s₂ h₂ => ?_
          have hderives : Symbol.type.Derives [token] [.node (.atomType (.ofKind token.kind)) []] :=
            .atomType (h₁.1 ▸ exists_atom hform)
          exact ⟨_, _, hderives, h₂.1⟩
        | array => exact ih.2 hl
    · intro state hl
      simp only [arrayTypeWithin, Pass.runs_bind]
      refine (expect_any hl (by decide)).mono fun word s₁ h₁ => ?_
      refine (expectBut_any h₁.2.lexed (by decide)).mono fun opened s₂ h₂ => ?_
      refine (expectBut_any h₂.2.lexed (by decide)).mono fun length s₃ h₃ => ?_
      have hdigits : ∃ value, Text.digits? length.value.toList = some value := by
        have hs := h₃.2.split
        exact (hs ▸ h₂.2.lexed).exists_digits h₃.1
      split
      · trivial
      · next size hsize =>
        obtain ⟨value, hvalue⟩ := hdigits
        obtain ⟨rfl, hfits⟩ := (Text.unsigned?_eq_some_iff hvalue).mp hsize
        simp only [Pass.runs_bind]
        refine (expectBut_any h₃.2.lexed (by decide)).mono fun closed s₄ h₄ => ?_
        refine (ih.1 h₄.2.lexed).mono fun element s₅ h₅ => ?_
        obtain ⟨tokens, tree, hd, hc⟩ := h₅.exists_tree
        have hread := (((h₁.2.marks h₂.2).marks h₃.2).marks h₄.2).trans hc
        refine (addFrom_consumes hread).mono fun id after ha => ?_
        have hderives : Symbol.type.Derives (word :: opened :: length :: closed :: tokens)
            [.node (.arrayType value) [tree]] :=
          .arrayType (by simp [h₁.1, h₂.1, h₃.1, h₄.1]) hvalue hfits hd
        exact ⟨_, _, hderives, ha.1⟩

/-- A written type is derived. -/
theorem type_reaches (hl : Lexed state.tokens) :
    (type .pins).Runs Any state fun id after => Reaches .type state [id] after :=
  runs_within fun fuel => (types_reach fuel).1 hl

/-- A name, a colon and a written type are consumed. -/
theorem typedName_any {what : String} (hl : Lexed state.tokens) :
    (typedName .pins what).Runs Any state fun typed after => ∃ name colon tokens tree,
      name.value = typed.1 ∧ [name, colon].map Token.kind = [.identifier, .colon] ∧
        Symbol.type.Derives tokens [tree] ∧
          Consumes state (name :: colon :: tokens) [typed.2] [tree] after := by
  simp only [typedName, Pass.runs_bind, Pass.runs_pure]
  refine (expectBut_any hl (by decide)).mono fun name s₁ h₁ => ?_
  refine (expectBut_any h₁.2.lexed (by decide)).mono fun colon s₂ h₂ => ?_
  refine (type_reaches h₂.2.lexed).mono fun written s₃ h₃ => ?_
  obtain ⟨tokens, tree, hd, hc⟩ := h₃.exists_tree
  exact ⟨name, colon, tokens, tree, rfl, by simp [h₁.1, h₂.1], hd, (h₁.2.marks h₂.2).trans hc⟩

/-- The definition of a type or of a variable consumes its word and a typed name. -/
theorem typedDefinition_any {word : TokenKind} {what : String}
    {make : String → NodeId → Definition} (hl : Lexed state.tokens) (hword : word ≠ .eof)
    (hchildren : ∀ name written, (make name written).children = [written]) :
    (typedDefinition .pins word what make).Runs Any state fun id after =>
      ∃ first name colon tokens tree written,
        [first, name, colon].map Token.kind = [word, .identifier, .colon] ∧
          Symbol.type.Derives tokens [tree] ∧
            Consumes state (first :: name :: colon :: tokens) [id]
              [.node (NodeKind.definition (make name.value written)).form [tree]] after := by
  simp only [typedDefinition, Pass.runs_bind]
  refine (expect_any hl hword).mono fun first s₁ h₁ => ?_
  refine (typedName_any h₁.2.lexed).mono fun typed s₂ h₂ => ?_
  obtain ⟨name, colon, tokens, tree, hname, hmarks, hd, hc⟩ := h₂
  have hbelow : Consumes state (first :: name :: colon :: tokens)
      (make typed.1 typed.2).children [tree] s₂ := by
    rw [hchildren]
    exact h₁.2.trans hc
  refine (addFrom_consumes hbelow).mono fun id after ha => ?_
  rw [← hname] at ha
  exact ⟨first, name, colon, tokens, tree, _, by simp [h₁.1, hmarks], hd, ha.1⟩

/-- The definition of a type is derived. -/
theorem typeDefinition_reaches (hl : Lexed state.tokens) :
    (typeDefinition .pins).Runs Any state fun id after => Reaches .definition state [id] after := by
  rw [typeDefinition_eq]
  refine (typedDefinition_any hl (by decide) fun _ _ => rfl).mono fun id after h => ?_
  obtain ⟨_, _, _, _, _, _, hmarks, hd, hc⟩ := h
  exact ⟨_, _, .typeDefinition hmarks hd, hc⟩

/-- The definition of a variable is derived. -/
theorem varDefinition_reaches (hl : Lexed state.tokens) :
    (varDefinition .pins).Runs Any state fun id after => Reaches .definition state [id] after := by
  rw [varDefinition_eq]
  refine (typedDefinition_any hl (by decide) fun _ _ => rfl).mono fun id after h => ?_
  obtain ⟨_, _, _, _, _, _, hmarks, hd, hc⟩ := h
  exact ⟨_, _, .varDefinition hmarks hd, hc⟩

/-- A parameter is derived. -/
theorem parameter_reaches (hl : Lexed state.tokens) :
    (parameter .pins).Runs Any state fun id after => Reaches .parameter state [id] after := by
  simp only [parameter, current, Pass.runs_bind, Pass.runs_get, Pass.runs_pure]
  refine (typedName_any hl).mono fun typed s₁ h₁ => ?_
  obtain ⟨name, colon, tokens, tree, hname, hmarks, hd, hc⟩ := h₁
  refine (addFrom_consumes hc).mono fun id after ha => ?_
  have hderives : Symbol.parameter.Derives (name :: colon :: tokens)
      [.node (.parameter typed.1) [tree]] := hname ▸ .parameter hmarks hd
  exact ⟨_, _, hderives, ha.1⟩

/-- Parameters are derived. -/
theorem parametersWithin_reaches : ∀ (fuel : Nat) {state : ParserState}, Lexed state.tokens →
    (parametersWithin .pins fuel).Runs Any state fun ids after =>
      Reaches .parameters state ids after := by
  intro fuel
  induction fuel with
  | zero => exact fun _ => trivial
  | succ fuel ih =>
    intro state hl
    rw [parametersWithin_succ]
    exact separated_reaches (by decide) (parameter_reaches hl) ih

/-- The parameters of a function are derived, if there are any. -/
theorem parameters_reaches (hl : Lexed state.tokens) :
    (parameters .pins).Runs Any state fun ids after =>
      Reaches (.optional .parameters) state ids after := by
  simp only [parameters, currentKind, current, Pass.runs_bind, Pass.runs_get, Pass.runs_pure]
  split
  · exact ⟨_, _, .absent, .refl hl⟩
  · refine runs_within fun fuel => ?_
    refine (parametersWithin_reaches fuel hl).mono fun ids after h => ?_
    obtain ⟨tokens, trees, hd, hc⟩ := h
    exact ⟨tokens, trees, .present hd, hc⟩

/-- An integer literal is derived: it is not too large. -/
theorem integerLiteral_reaches (hl : Lexed state.tokens)
    (hk : state.stream.current.kind = .integer) :
    integerLiteral.Runs Any state fun id after => Reaches .atom state [id] after := by
  simp only [integerLiteral, current, Pass.runs_bind, Pass.runs_get, Pass.runs_pure]
  split
  · next hfits =>
    obtain ⟨value, hvalue⟩ := hl.exists_digits hk
    have hle : value ≤ 2147483647 := (Text.isSome_signed?_iff hvalue).mp hfits
    refine (literal_consumes hl (by rw [hk]; decide)).mono fun id after ha => ?_
    exact ⟨_, _, .integer hk hvalue hle, ha⟩
  · trivial

/-- An operation was read whose level is above a power, and behind which no operator belongs to
it. -/
def Operates (power : BindingPower) (base : ParserState) (id : NodeId) (after : ParserState) :
    Prop :=
  ∃ level tokens tree, power.rank < level.floor ∧
    (Symbol.operation level).Derives tokens [tree] ∧ Consumes base tokens [id] [tree] after ∧
      after.stream.current.kind.hold ≤ level.ceiling

/-- An operand that is no operation at all can be read anywhere. -/
theorem Reaches.operates (h : Reaches .atom base [id] after) : Operates .unary base id after := by
  obtain ⟨tokens, tree, hd, hc⟩ := h.exists_tree
  exact ⟨.postfixed, tokens, tree, by decide, .operand hd, hc, TokenKind.hold_le _⟩

/-- An operator binds two operations when the next token does not belong to the right one. -/
theorem Operates.binary {level : Precedence} {operator : BinaryOperator} {mark : Token}
    {between : ParserState} {right : NodeId} {span : Text.Span}
    (hleft : Operates power base left state)
    (hmark : Consumes state [mark] [] [] between) (hcurrent : mark = state.stream.current)
    (hoperator : level.operator? mark.kind = some operator) (hpower : power.rank < level.rank)
    (hright : Operates level.power between right after)
    (hend : after.stream.current.kind.hold ≤ level.rank)
    (hchain : ¬(operator.isComparison = true ∧ after.stream.current.kind.isRelational = true)) :
    (addFrom span (.expression (.binary operator left right))).Runs Any after fun id later =>
      Operates power base id later := by
  obtain ⟨first, tokens, tree, _, hd, hc, hhold⟩ := hleft
  obtain ⟨second, others, next, hfloor, hd', hc', _⟩ := hright
  refine (addFrom_consumes ((hc.marks hmark).trans hc')).mono fun id later hlater => ?_
  have hread : Consumes base (tokens ++ mark :: others) [id]
      [.node (.binary operator) [tree, next]] later := by simpa [NodeKind.form] using hlater.1
  obtain ⟨inner, hinner, hrank, hsix⟩ := Precedence.exists_tighter hoperator
  have hlevel : level.rank ≤ first.ceiling := by
    rw [← hcurrent, TokenKind.hold_of_continuation
      (Precedence.continuation_of_operator hoperator).1] at hhold
    exact hhold
  have hsecond : inner.rank ≤ second.rank := by
    have := Precedence.lt_rank_of_lt_floor hfloor (by change level.rank < 6; omega)
    change level.rank < second.rank at this
    omega
  have hfirst := Precedence.ceiling_le first
  have hpower' : power.rank < level.floor := by
    rw [Precedence.floor_eq (by omega)]
    exact hpower
  have hstream : later.stream.current = after.stream.current := by rw [hlater.2]
  by_cases hcomparison : level = .comparison
  · subst hcomparison
    cases hinner
    have hadditive : Precedence.additive.rank ≤ first.rank := by
      cases first <;> first | decide | exact absurd hlevel (by decide)
    refine ⟨.comparison, _, _, hpower', .comparison hoperator (hd.loosen hadditive)
      (hd'.loosen hsecond), hread, ?_⟩
    have hrelational : after.stream.current.kind.hold ≠ 3 := by
      rw [ne_eq, TokenKind.hold_eq_three_iff]
      exact fun hr => hchain ⟨(Precedence.isComparison_iff hoperator).mpr rfl, hr⟩
    rw [hstream]
    change after.stream.current.kind.hold ≤ 3 at hend
    change after.stream.current.kind.hold ≤ 2
    omega
  · refine ⟨level, _, _, hpower', .chained hcomparison hoperator hinner
      (hd.loosen (Nat.le_trans hlevel hfirst)) (hd'.loosen hsecond), hread, ?_⟩
    rw [hstream, Precedence.ceiling_eq hcomparison]
    exact hend

/-- What was read above the tightest power of an operator can be read anywhere. -/
theorem Operates.weaken (h : Operates .unary base id after) (hpower : power.rank < 7) :
    Operates power base id after := by
  obtain ⟨level, tokens, tree, hfloor, hrest⟩ := h
  have hseven : 7 ≤ level.floor := hfloor
  exact ⟨level, tokens, tree, Nat.lt_of_lt_of_le hpower hseven, hrest⟩

/-- An operation that is read anywhere is one of the loosest level. -/
theorem Operates.loosest (h : Operates power base id after) :
    Reaches (.operation .or) base [id] after := by
  obtain ⟨level, tokens, tree, _, hd, hc, _⟩ := h
  have hle : Precedence.or.rank ≤ level.rank := by cases level <;> decide
  exact ⟨tokens, [tree], hd.loosen hle, hc⟩

theorem Operates.lexed (h : Operates power base id after) : Lexed after.tokens :=
  h.loosest.lexed

/-- What was read behind an opening bracket is a form of an operand that a bracket closes. -/
def ReachesForm (base : ParserState) (item : Expression) (after : ParserState) : Prop :=
  ∃ tokens trees, Consumes base tokens item.children trees after ∧
    ∀ closed : Token, closed.kind = .closeCurly →
      Symbol.atom.Derives (tokens ++ [closed]) [.node (NodeKind.expression item).form trees]

/-- Every function of the mutual block reads what is derived from its symbol, whatever the bound on
nested calls is. -/
structure Derived (fuel : Nat) : Prop where
  expression : ∀ {state : ParserState}, Lexed state.tokens →
    (expressionWithin .pins fuel).Runs Any state fun id after =>
      Reaches .expression state [id] after
  expressions : ∀ {state : ParserState}, Lexed state.tokens →
    (expressionsWithin .pins fuel).Runs Any state fun ids after =>
      Reaches .expressions state ids after
  operation : ∀ {state : ParserState} {power : BindingPower}, Lexed state.tokens →
    power.rank < 7 → (operationWithin .pins fuel power).Runs Any state fun id after =>
      Operates power state id after ∧ after.stream.current.kind.hold ≤ power.rank
  continued : ∀ {base state : ParserState} {power : BindingPower} {left : NodeId},
    Operates power base left state →
    (continuedWithin .pins fuel power left).Runs Any state fun id after =>
      Operates power base id after ∧ after.stream.current.kind.hold ≤ power.rank
  operand : ∀ {state : ParserState} {form : OperandForm}, Lexed state.tokens →
    Grammar.pins.operand? state.stream.current.kind = some form →
    (operandWithin .pins fuel form).Runs Any state fun id after => Operates .unary state id after
  primary : ∀ {state : ParserState}, Lexed state.tokens →
    (primaryWithin .pins fuel).Runs Any state fun id after => Reaches .atom state [id] after
  call : ∀ {base state : ParserState} {name : Token}, name.kind = .identifier →
    Consumes base [name] [] [] state →
    (callWithin .pins fuel name).Runs Any state fun id after => Reaches .atom base [id] after
  binary : ∀ {base state : ParserState} {power bound : BindingPower} {left : NodeId},
    Operates power base left state →
    Grammar.pins.continuation? state.stream.current.kind = some ⟨.binary, bound⟩ →
    power.rank < bound.rank →
    (binaryWithin .pins fuel bound left).Runs Any state fun id after =>
      Operates power base id after
  index : ∀ {base state : ParserState} {power bound : BindingPower} {left : NodeId},
    Operates power base left state →
    Grammar.pins.continuation? state.stream.current.kind = some ⟨.index, bound⟩ →
    power.rank < bound.rank →
    (indexWithin .pins fuel left).Runs Any state fun id after => Operates power base id after
  prefixed : ∀ {state : ParserState}, Lexed state.tokens →
    Grammar.pins.operand? state.stream.current.kind = some .prefixed →
    (prefixedWithin .pins fuel).Runs Any state fun id after => Operates .unary state id after
  block : ∀ {state : ParserState}, Lexed state.tokens →
    (blockWithin .pins fuel).Runs Any state fun id after => Reaches .atom state [id] after
  curly : ∀ {state : ParserState}, Lexed state.tokens →
    (curlyWithin .pins fuel).Runs Any state fun id after => Reaches .atom state [id] after
  assignment : ∀ {base state : ParserState} {opened : Token}, opened.kind = .openCurly →
    Consumes base [opened] [] [] state →
    (assignmentWithin .pins fuel).Runs Any state fun item after => ReachesForm base item after
  conditional : ∀ {base state : ParserState} {opened : Token}, opened.kind = .openCurly →
    Consumes base [opened] [] [] state →
    (conditionalWithin .pins fuel).Runs Any state fun item after => ReachesForm base item after
  whileLoop : ∀ {base state : ParserState} {opened : Token}, opened.kind = .openCurly →
    Consumes base [opened] [] [] state →
    (whileWithin .pins fuel).Runs Any state fun item after => ReachesForm base item after
  forLoop : ∀ {base state : ParserState} {opened : Token}, opened.kind = .openCurly →
    Consumes base [opened] [] [] state →
    (forWithin .pins fuel).Runs Any state fun item after => ReachesForm base item after
  definitions : ∀ {state : ParserState}, Lexed state.tokens →
    (definitionsWithin .pins fuel).Runs Any state fun id after => ∃ tokens members,
      Symbol.definitions.Derives tokens members ∧
        Consumes state tokens [id] [.node .definitions members] after
  definitionList : ∀ {state : ParserState}, Lexed state.tokens →
    (definitionListWithin .pins fuel).Runs Any state fun ids after =>
      Reaches .definitions state ids after
  definition : ∀ {state : ParserState}, Lexed state.tokens →
    (definitionWithin .pins fuel).Runs Any state fun id after =>
      Reaches .definition state [id] after
  function : ∀ {state : ParserState}, Lexed state.tokens →
    (functionDefinitionWithin .pins fuel).Runs Any state fun id after =>
      Reaches .definition state [id] after

namespace Derived

/-- Under a bound of 0 nothing is read. -/
theorem zero : Derived 0 := by
  constructor <;> intros <;> trivial

/-- An expression is derived with the where clause that may follow it. -/
theorem expression_step (ih : Derived fuel) (hl : Lexed state.tokens) :
    (expressionWithin .pins (fuel + 1)).Runs Any state fun id after =>
      Reaches .expression state [id] after := by
  simp only [expressionWithin, currentKind, current, peekKind, Pass.runs_bind, Pass.runs_get,
    Pass.runs_pure]
  refine (ih.operation hl (by decide)).mono fun item s₁ h₁ => ?_
  obtain ⟨tokens, tree, hd, hc⟩ := h₁.1.loosest.exists_tree
  split
  · next hwhere =>
    simp only [Pass.runs_bind, spanAt, Pass.runs_get, Pass.runs_pure]
    refine (advance_consumes hc.lexed (by rw [hwhere.1]; decide)).mono fun opened s₂ h₂ => ?_
    have hword : s₂.stream.current.kind = .whereWord := by
      rw [← hwhere.2, peekKind_eq h₂.2.split]
    refine (advance_consumes h₂.2.lexed (by rw [hword]; decide)).mono fun word s₃ h₃ => ?_
    refine (ih.definitions h₃.2.lexed).mono fun listed s₄ h₄ => ?_
    obtain ⟨others, members, hmembers, hc'⟩ := h₄
    refine (expectBut_any hc'.lexed (by decide)).mono fun closed s₅ h₅ => ?_
    have hread := ((((hc.marks h₂.2).marks h₃.2).trans hc').marks h₅.2).swap
    refine (addFrom_consumes hread).mono fun id after ha => ?_
    have hderives : Symbol.expression.Derives (tokens ++ opened :: word :: others ++ [closed])
        [.node .whereClause [.node .definitions members, tree]] :=
      .whereClause (by simp [h₂.1, h₃.1, h₅.1, hwhere.1, hword]) hd hmembers
    exact ⟨_, _, hderives, by simpa [NodeKind.form] using ha.1⟩
  · exact ⟨tokens, [tree], .operation hd, hc⟩

/-- Expressions with commas between them are derived. -/
theorem expressions_step (ih : Derived fuel) (hl : Lexed state.tokens) :
    (expressionsWithin .pins (fuel + 1)).Runs Any state fun ids after =>
      Reaches .expressions state ids after := by
  rw [expressionsWithin_succ]
  exact separated_reaches (by decide) (ih.expression hl) ih.expressions

/-- An operation is an operand with the operators behind it. -/
theorem operation_step (ih : Derived fuel) (hl : Lexed state.tokens) (hpower : power.rank < 7) :
    (operationWithin .pins (fuel + 1) power).Runs Any state fun id after =>
      Operates power state id after ∧ after.stream.current.kind.hold ≤ power.rank := by
  simp only [operationWithin, currentKind, current, Pass.runs_bind, Pass.runs_get, Pass.runs_pure]
  cases hform : Grammar.pins.operand? state.stream.current.kind with
  | none => trivial
  | some form =>
    simp only [Pass.runs_bind]
    refine (ih.operand hl hform).mono fun left s₁ h₁ => ?_
    exact ih.continued (h₁.weaken hpower)

/-- An operation goes on up to a token that does not bind tighter than the power. -/
theorem continued_step (ih : Derived fuel) (h : Operates power base left state) :
    (continuedWithin .pins (fuel + 1) power left).Runs Any state fun id after =>
      Operates power base id after ∧ after.stream.current.kind.hold ≤ power.rank := by
  simp only [continuedWithin, currentKind, current, Pass.runs_bind, Pass.runs_get, Pass.runs_pure]
  cases hnext : Grammar.pins.continuation? state.stream.current.kind with
  | none => exact ⟨h, by simp [TokenKind.hold, hnext]⟩
  | some next =>
    dsimp only
    have hgo : ∀ longer : Parse NodeId,
        (longer.Runs Any state fun id after => Operates power base id after) →
        (longer >>= continuedWithin .pins fuel power).Runs Any state fun id after =>
          Operates power base id after ∧ after.stream.current.kind.hold ≤ power.rank := by
      intro longer hlonger
      rw [Pass.runs_bind]
      exact hlonger.mono fun id s₁ h₁ => ih.continued h₁
    obtain ⟨form, bound⟩ := next
    split
    · next hle => exact ⟨h, by rw [TokenKind.hold_of_continuation hnext]; exact hle⟩
    · next hlt =>
      have hbound : power.rank < bound.rank := Nat.lt_of_not_le hlt
      cases form with
      | binary => exact hgo _ (ih.binary h hnext hbound)
      | index => exact hgo _ (ih.index h hnext hbound)

/-- An operand is derived in the form that its first token chooses. -/
theorem operand_step (ih : Derived fuel) {form : OperandForm} (hl : Lexed state.tokens)
    (hform : Grammar.pins.operand? state.stream.current.kind = some form) :
    (operandWithin .pins (fuel + 1) form).Runs Any state fun id after =>
      Operates .unary state id after := by
  cases form with
  | primary => exact (ih.primary hl).mono fun _ _ h => h.operates
  | prefixed => exact ih.prefixed hl hform
  | block => exact (ih.block hl).mono fun _ _ h => h.operates
  | curly => exact (ih.curly hl).mono fun _ _ h => h.operates

/-- A literal, a name or a call is derived. -/
theorem primary_step (ih : Derived fuel) (hl : Lexed state.tokens) :
    (primaryWithin .pins (fuel + 1)).Runs Any state fun id after =>
      Reaches .atom state [id] after := by
  simp only [primaryWithin, currentKind, current, Pass.runs_bind, Pass.runs_get, Pass.runs_pure]
  split
  · next hk => exact integerLiteral_reaches hl hk
  · next hk =>
    exact (literal_consumes hl (by rw [hk]; decide)).mono fun _ _ ha => ⟨_, _, .logical hk, ha⟩
  · next hk =>
    exact (literal_consumes hl (by rw [hk]; decide)).mono fun _ _ ha => ⟨_, _, .string hk, ha⟩
  · next hk =>
    simp only [Pass.runs_bind, Pass.runs_get, Pass.runs_pure]
    refine (advance_consumes hl (by rw [hk]; decide)).mono fun token s₁ h₁ => ?_
    have hname : token.kind = .identifier := h₁.1 ▸ hk
    split
    · exact ih.call hname h₁.2
    · refine (add_consumes h₁.2).mono fun id after ha => ?_
      have hderives : Symbol.atom.Derives [token] [.node (.name token.value) []] := .name hname
      exact ⟨_, _, hderives, ha.1⟩
  · trivial

/-- A call is derived with its arguments. -/
theorem call_step (ih : Derived fuel) {name : Token} (hname : name.kind = .identifier)
    (hc : Consumes base [name] [] [] state) :
    (callWithin .pins (fuel + 1) name).Runs Any state fun id after =>
      Reaches .atom base [id] after := by
  simp only [callWithin, currentKind, current, Pass.runs_bind, Pass.runs_get, Pass.runs_pure]
  refine (expect_any hc.lexed (by decide)).mono fun opened s₁ h₁ => ?_
  have hclose : ∀ (arguments : List NodeId) (s₂ : ParserState),
      Reaches (.optional .expressions) s₁ arguments s₂ →
      Pass.Runs Any (do
        let _ ← expectBut .closeParen "expected `,` or `)` in argument list"
        addFrom name.span (.expression (.call name.value arguments))) s₂ fun id after =>
          Reaches .atom base [id] after := by
    intro arguments s₂ h₂
    obtain ⟨tokens, trees, hd, hc'⟩ := h₂
    simp only [Pass.runs_bind]
    refine (expectBut_any hc'.lexed (by decide)).mono fun closed s₃ h₃ => ?_
    have hread := ((hc.marks h₁.2).trans hc').marks h₃.2
    refine (addFrom_consumes hread).mono fun id after ha => ?_
    have hderives : Symbol.atom.Derives (name :: opened :: tokens ++ [closed])
        [.node (.call name.value) trees] := .call (by simp [hname, h₁.1, h₃.1]) hd
    exact ⟨_, _, hderives, ha.1⟩
  split
  · simp only [pure_bind]
    exact hclose [] s₁ ⟨_, _, .absent, .refl h₁.2.lexed⟩
  · rw [Pass.runs_bind]
    refine (ih.expressions h₁.2.lexed).mono fun arguments s₂ h₂ => ?_
    obtain ⟨tokens, trees, hd, hc'⟩ := h₂
    exact hclose arguments s₂ ⟨tokens, trees, .present hd, hc'⟩

/-- An operator is derived with both operands. -/
theorem binary_step (ih : Derived fuel) {bound : BindingPower}
    (h : Operates power base left state)
    (hnext : Grammar.pins.continuation? state.stream.current.kind = some ⟨.binary, bound⟩)
    (hpower : power.rank < bound.rank) :
    (binaryWithin .pins (fuel + 1) bound left).Runs Any state fun id after =>
      Operates power base id after := by
  obtain ⟨level, operator, hoperator, rfl⟩ := Precedence.exists_operator hnext
  have hmark := (Precedence.continuation_of_operator hoperator).2
  have hk : state.stream.current.kind ≠ .eof := fun he => by simp [he, Grammar.pins] at hnext
  obtain ⟨inner, _, hrank, hsix⟩ := Precedence.exists_tighter hoperator
  have hseven : level.power.rank < 7 := by
    change level.rank < 7
    omega
  simp only [binaryWithin, currentKind, current, hmark, Pass.runs_bind, Pass.runs_get,
    Pass.runs_pure]
  refine (advance_consumes h.lexed hk).mono fun mark s₁ h₁ => ?_
  refine (ih.operation h₁.2.lexed hseven).mono fun right s₂ h₂ => ?_
  split
  · trivial
  · next hchain =>
    simp only [Pass.runs_bind, spanAt, Pass.runs_get, Pass.runs_pure]
    exact h.binary h₁.2 h₁.1 (h₁.1 ▸ hoperator) hpower h₂.1 h₂.2 hchain

/-- An index is derived behind an array. -/
theorem index_step (ih : Derived fuel) {bound : BindingPower} (h : Operates power base left state)
    (hnext : Grammar.pins.continuation? state.stream.current.kind = some ⟨.index, bound⟩)
    (hpower : power.rank < bound.rank) :
    (indexWithin .pins (fuel + 1) left).Runs Any state fun id after =>
      Operates power base id after := by
  obtain ⟨level, tokens, tree, _, hd, hc, hhold⟩ := h
  have hseven : bound.rank = 7 := by
    cases hk : state.stream.current.kind <;> rw [hk] at hnext <;> cases hnext
    rfl
  rw [TokenKind.hold_of_continuation hnext, hseven] at hhold
  have hlevel : level = .postfixed := by
    cases level <;> first | rfl | exact absurd hhold (by decide)
  subst hlevel
  simp only [indexWithin, Pass.runs_bind]
  refine (expect_any hc.lexed (by decide)).mono fun opened s₁ h₁ => ?_
  refine (ih.expression h₁.2.lexed).mono fun index s₂ h₂ => ?_
  obtain ⟨others, next, hd', hc'⟩ := h₂.exists_tree
  refine (expectBut_any hc'.lexed (by decide)).mono fun closed s₃ h₃ => ?_
  simp only [spanAt, Pass.runs_bind, Pass.runs_get, Pass.runs_pure]
  have hread := ((hc.marks h₁.2).trans hc').marks h₃.2
  refine (addFrom_consumes hread).mono fun id after ha => ?_
  have hderives : (Symbol.operation .postfixed).Derives (tokens ++ opened :: others ++ [closed])
      [.node (.binary .index) [tree, next]] := .index (by simp [h₁.1, h₃.1]) hd hd'
  refine ⟨.postfixed, _, _, ?_, hderives, ?_, TokenKind.hold_le _⟩
  · rw [hseven] at hpower
    exact hpower
  · simpa [NodeKind.form] using ha.1

/-- An operator before an operand is derived. -/
theorem prefixed_step (ih : Derived fuel) (hl : Lexed state.tokens)
    (hform : Grammar.pins.operand? state.stream.current.kind = some .prefixed) :
    (prefixedWithin .pins (fuel + 1)).Runs Any state fun id after =>
      Operates .unary state id after := by
  have hmark : UnaryOperator.ofMark? state.stream.current.kind =
      some (.ofKind state.stream.current.kind) := by
    cases hk : state.stream.current.kind <;> rw [hk] at hform <;> first | rfl | cases hform
  have hk : state.stream.current.kind ≠ .eof := fun he => by simp [he, Grammar.pins] at hform
  simp only [prefixedWithin, Pass.runs_bind]
  refine (advance_consumes hl hk).mono fun mark s₁ h₁ => ?_
  refine (ih.operation h₁.2.lexed (by decide)).mono fun operand s₂ h₂ => ?_
  obtain ⟨⟨level, tokens, tree, hfloor, hd, hc, _⟩, hend⟩ := h₂
  have hlevel : Precedence.prefixed.rank ≤ level.rank := by
    cases level <;> first | decide | exact absurd hfloor (by decide)
  refine (addFrom_consumes (h₁.2.trans hc)).mono fun id after ha => ?_
  have hderives : (Symbol.operation .prefixed).Derives (mark :: tokens)
      [.node (.unary (.ofKind mark.kind)) [tree]] :=
    .prefixed (h₁.1 ▸ hmark) (hd.loosen hlevel)
  exact ⟨.prefixed, _, _, by decide, hderives, ha.1, by rw [ha.2]; exact hend⟩

/-- A block is derived. -/
theorem block_step (ih : Derived fuel) (hl : Lexed state.tokens) :
    (blockWithin .pins (fuel + 1)).Runs Any state fun id after =>
      Reaches .atom state [id] after := by
  simp only [blockWithin, Pass.runs_bind]
  refine (expect_any hl (by decide)).mono fun opened s₁ h₁ => ?_
  refine (ih.expressions h₁.2.lexed).mono fun expressions s₂ h₂ => ?_
  obtain ⟨tokens, trees, hd, hc⟩ := h₂
  refine (expectBut_any hc.lexed (by decide)).mono fun closed s₃ h₃ => ?_
  refine (addFrom_consumes ((h₁.2.trans hc).marks h₃.2)).mono fun id after ha => ?_
  have hderives : Symbol.atom.Derives (opened :: tokens ++ [closed]) [.node .block trees] :=
    .block (by simp [h₁.1, h₃.1]) hd
  exact ⟨_, _, hderives, ha.1⟩

/-- What stands in curly brackets is derived in the form that its first token chooses. -/
theorem curly_step (ih : Derived fuel) (hl : Lexed state.tokens) :
    (curlyWithin .pins (fuel + 1)).Runs Any state fun id after =>
      Reaches .atom state [id] after := by
  simp only [curlyWithin, currentKind, current, Pass.runs_bind, Pass.runs_get, Pass.runs_pure]
  refine (expect_any hl (by decide)).mono fun opened s₁ h₁ => ?_
  have hclose : ∀ (item : Expression) (s₂ : ParserState), ReachesForm state item s₂ →
      Pass.Runs Any (do
        let _ ← expectBut .closeCurly "expected `\x7d`"
        addFrom opened.span (.expression item)) s₂ fun id after =>
          Reaches .atom state [id] after := by
    intro item s₂ h₂
    obtain ⟨tokens, trees, hc, hd⟩ := h₂
    simp only [Pass.runs_bind]
    refine (expectBut_any hc.lexed (by decide)).mono fun closed s₃ h₃ => ?_
    refine (addFrom_consumes (hc.marks h₃.2)).mono fun id after ha => ?_
    exact ⟨_, _, hd closed h₃.1, ha.1⟩
  split <;> rw [Pass.runs_bind]
  · exact (ih.conditional h₁.1 h₁.2).mono hclose
  · exact (ih.whileLoop h₁.1 h₁.2).mono hclose
  · exact (ih.forLoop h₁.1 h₁.2).mono hclose
  · exact (ih.assignment h₁.1 h₁.2).mono hclose

/-- An assignment is derived. -/
theorem assignment_step (ih : Derived fuel) {opened : Token} (hopened : opened.kind = .openCurly)
    (hc : Consumes base [opened] [] [] state) :
    (assignmentWithin .pins (fuel + 1)).Runs Any state fun item after =>
      ReachesForm base item after := by
  simp only [assignmentWithin, Pass.runs_bind, Pass.runs_pure]
  refine (ih.expression hc.lexed).mono fun left s₁ h₁ => ?_
  obtain ⟨leftTokens, leftTree, hd₁, hc₁⟩ := h₁.exists_tree
  refine (expectBut_any hc₁.lexed (by decide)).mono fun mark s₂ h₂ => ?_
  refine (ih.expression h₂.2.lexed).mono fun right s₃ h₃ => ?_
  obtain ⟨rightTokens, rightTree, hd₃, hc₃⟩ := h₃.exists_tree
  refine ⟨_, _, ((hc.trans hc₁).marks h₂.2).trans hc₃, fun closed hclosed => ?_⟩
  have hderives : Symbol.atom.Derives
      (opened :: leftTokens ++ mark :: rightTokens ++ [closed])
      [.node (.binary .assign) [leftTree, rightTree]] :=
    .assignment (by simp [hopened, h₂.1, hclosed]) hd₁ hd₃
  simpa [NodeKind.form] using hderives

/-- A choice is derived with the branches it has. -/
theorem conditional_step (ih : Derived fuel) {opened : Token} (hopened : opened.kind = .openCurly)
    (hc : Consumes base [opened] [] [] state) :
    (conditionalWithin .pins (fuel + 1)).Runs Any state fun item after =>
      ReachesForm base item after := by
  simp only [conditionalWithin, currentKind, current, Pass.runs_bind, Pass.runs_get,
    Pass.runs_pure]
  refine (expect_any hc.lexed (by decide)).mono fun word s₁ h₁ => ?_
  refine (ih.expression h₁.2.lexed).mono fun condition s₂ h₂ => ?_
  obtain ⟨conditionTokens, conditionTree, hd₂, hc₂⟩ := h₂.exists_tree
  refine (expectBut_any hc₂.lexed (by decide)).mono fun thenWord s₃ h₃ => ?_
  refine (ih.expression h₃.2.lexed).mono fun branch s₄ h₄ => ?_
  obtain ⟨branchTokens, branchTree, hd₄, hc₄⟩ := h₄.exists_tree
  have hread := (((hc.marks h₁.2).trans hc₂).marks h₃.2).trans hc₄
  split
  · next helse =>
    simp only [Pass.runs_bind, Pass.runs_pure]
    refine (advance_consumes hc₄.lexed (by rw [helse]; decide)).mono fun elseWord s₅ h₅ => ?_
    refine (ih.expression h₅.2.lexed).mono fun other s₆ h₆ => ?_
    obtain ⟨otherTokens, otherTree, hd₆, hc₆⟩ := h₆.exists_tree
    refine ⟨_, _, (hread.marks h₅.2).trans hc₆, fun closed hclosed => ?_⟩
    have hderives : Symbol.atom.Derives
        (opened :: word :: conditionTokens ++ thenWord :: branchTokens ++
          elseWord :: otherTokens ++ [closed])
        [.node .conditional [conditionTree, branchTree, otherTree]] :=
      .choice (by simp [hopened, h₁.1, h₃.1, h₅.1, helse, hclosed]) hd₂ hd₄ hd₆
    simpa [NodeKind.form] using hderives
  · refine ⟨_, _, hread, fun closed hclosed => ?_⟩
    have hderives : Symbol.atom.Derives
        (opened :: word :: conditionTokens ++ thenWord :: branchTokens ++ [closed])
        [.node .conditional [conditionTree, branchTree]] :=
      .conditional (by simp [hopened, h₁.1, h₃.1, hclosed]) hd₂ hd₄
    simpa [NodeKind.form] using hderives

/-- A loop under a condition is derived. -/
theorem whileLoop_step (ih : Derived fuel) {opened : Token} (hopened : opened.kind = .openCurly)
    (hc : Consumes base [opened] [] [] state) :
    (whileWithin .pins (fuel + 1)).Runs Any state fun item after =>
      ReachesForm base item after := by
  simp only [whileWithin, Pass.runs_bind, Pass.runs_pure]
  refine (expect_any hc.lexed (by decide)).mono fun word s₁ h₁ => ?_
  refine (ih.expression h₁.2.lexed).mono fun condition s₂ h₂ => ?_
  obtain ⟨conditionTokens, conditionTree, hd₂, hc₂⟩ := h₂.exists_tree
  refine (expectBut_any hc₂.lexed (by decide)).mono fun colon s₃ h₃ => ?_
  refine (ih.expression h₃.2.lexed).mono fun body s₄ h₄ => ?_
  obtain ⟨bodyTokens, bodyTree, hd₄, hc₄⟩ := h₄.exists_tree
  refine ⟨_, _, (((hc.marks h₁.2).trans hc₂).marks h₃.2).trans hc₄, fun closed hclosed => ?_⟩
  have hderives : Symbol.atom.Derives
      (opened :: word :: conditionTokens ++ colon :: bodyTokens ++ [closed])
      [.node .whileLoop [conditionTree, bodyTree]] :=
    .whileLoop (by simp [hopened, h₁.1, h₃.1, hclosed]) hd₂ hd₄
  simpa [NodeKind.form] using hderives

/-- The counter of a loop is a name. -/
theorem counter_any (hl : Lexed state.tokens) :
    counter.Runs Any state fun id after => ∃ token, token.kind = .identifier ∧
      Consumes state [token] [id] [.node (.name token.value) []] after := by
  simp only [counter, Pass.runs_bind]
  refine (expectBut_any hl (by decide)).mono fun token s₁ h₁ => ?_
  exact (add_consumes h₁.2).mono fun id after ha => ⟨token, h₁.1, ha.1⟩

/-- A counting loop is derived. -/
theorem forLoop_step (ih : Derived fuel) {opened : Token} (hopened : opened.kind = .openCurly)
    (hc : Consumes base [opened] [] [] state) :
    (forWithin .pins (fuel + 1)).Runs Any state fun item after =>
      ReachesForm base item after := by
  simp only [forWithin, Pass.runs_bind, Pass.runs_pure]
  refine (expect_any hc.lexed (by decide)).mono fun word s₁ h₁ => ?_
  refine (counter_any h₁.2.lexed).mono fun counter s₂ h₂ => ?_
  obtain ⟨name, hname, hc₂⟩ := h₂
  refine (expectBut_any hc₂.lexed (by decide)).mono fun mark s₃ h₃ => ?_
  refine (ih.expression h₃.2.lexed).mono fun low s₄ h₄ => ?_
  obtain ⟨lowTokens, lowTree, hd₄, hc₄⟩ := h₄.exists_tree
  refine (expectBut_any hc₄.lexed (by decide)).mono fun comma s₅ h₅ => ?_
  refine (ih.expression h₅.2.lexed).mono fun high s₆ h₆ => ?_
  obtain ⟨highTokens, highTree, hd₆, hc₆⟩ := h₆.exists_tree
  refine (expectBut_any hc₆.lexed (by decide)).mono fun second s₇ h₇ => ?_
  refine (ih.expression h₇.2.lexed).mono fun step s₈ h₈ => ?_
  obtain ⟨stepTokens, stepTree, hd₈, hc₈⟩ := h₈.exists_tree
  refine (expectBut_any hc₈.lexed (by decide)).mono fun colon s₉ h₉ => ?_
  refine (ih.expression h₉.2.lexed).mono fun body s h => ?_
  obtain ⟨bodyTokens, bodyTree, hd, hc'⟩ := h.exists_tree
  have hlow := (((hc.marks h₁.2).trans hc₂).marks h₃.2).trans hc₄
  have hstep := (((hlow.marks h₅.2).trans hc₆).marks h₇.2).trans hc₈
  refine ⟨_, _, (hstep.marks h₉.2).trans hc', fun closed hclosed => ?_⟩
  have hderives : Symbol.atom.Derives
      (opened :: word :: name :: mark :: lowTokens ++ comma :: highTokens ++ second :: stepTokens ++
        colon :: bodyTokens ++ [closed])
      [.node .forLoop [.node (.name name.value) [], lowTree, highTree, stepTree, bodyTree]] :=
    .forLoop (by simp [hopened, h₁.1, hname, h₃.1, h₅.1, h₇.1, h₉.1, hclosed]) hd₄ hd₆ hd₈ hd
  simpa [NodeKind.form] using hderives

/-- Definitions are derived as one node. -/
theorem definitions_step (ih : Derived fuel) (hl : Lexed state.tokens) :
    (definitionsWithin .pins (fuel + 1)).Runs Any state fun id after => ∃ tokens members,
      Symbol.definitions.Derives tokens members ∧
        Consumes state tokens [id] [.node .definitions members] after := by
  simp only [definitionsWithin, current, Pass.runs_bind, Pass.runs_get, Pass.runs_pure]
  refine (ih.definitionList hl).mono fun ids s₁ h₁ => ?_
  obtain ⟨tokens, members, hd, hc⟩ := h₁
  exact (addFrom_consumes hc).mono fun id after ha => ⟨tokens, members, hd, ha.1⟩

/-- Definitions with semicolons between them are derived. -/
theorem definitionList_step (ih : Derived fuel) (hl : Lexed state.tokens) :
    (definitionListWithin .pins (fuel + 1)).Runs Any state fun ids after =>
      Reaches .definitions state ids after := by
  rw [definitionListWithin_succ]
  exact separated_reaches (by decide) (ih.definition hl) ih.definitionList

/-- A definition is derived in the form that its first token chooses. -/
theorem definition_step (ih : Derived fuel) (hl : Lexed state.tokens) :
    (definitionWithin .pins (fuel + 1)).Runs Any state fun id after =>
      Reaches .definition state [id] after := by
  simp only [definitionWithin, currentKind, current, Pass.runs_bind, Pass.runs_get,
    Pass.runs_pure]
  cases Grammar.pins.definition? state.stream.current.kind with
  | none => trivial
  | some form =>
    cases form with
    | type => exact typeDefinition_reaches hl
    | var => exact varDefinition_reaches hl
    | function => exact ih.function hl

/-- A function is derived. -/
theorem function_step (ih : Derived fuel) (hl : Lexed state.tokens) :
    (functionDefinitionWithin .pins (fuel + 1)).Runs Any state fun id after =>
      Reaches .definition state [id] after := by
  simp only [functionDefinitionWithin, Pass.runs_bind]
  refine (expect_any hl (by decide)).mono fun word s₁ h₁ => ?_
  refine (expectBut_any h₁.2.lexed (by decide)).mono fun name s₂ h₂ => ?_
  refine (expectBut_any h₂.2.lexed (by decide)).mono fun opened s₃ h₃ => ?_
  refine (parameters_reaches h₃.2.lexed).mono fun parameters s₄ h₄ => ?_
  obtain ⟨parameterTokens, members, hd₄, hc₄⟩ := h₄
  refine (expectBut_any hc₄.lexed (by decide)).mono fun closed s₅ h₅ => ?_
  refine (expectBut_any h₅.2.lexed (by decide)).mono fun colon s₆ h₆ => ?_
  refine (type_reaches h₆.2.lexed).mono fun result s₇ h₇ => ?_
  obtain ⟨resultTokens, resultTree, hd₇, hc₇⟩ := h₇.exists_tree
  refine (expectBut_any hc₇.lexed (by decide)).mono fun mark s₈ h₈ => ?_
  refine (ih.expression h₈.2.lexed).mono fun body s₉ h₉ => ?_
  obtain ⟨bodyTokens, bodyTree, hd₉, hc₉⟩ := h₉.exists_tree
  have hsignature := (((h₁.2.marks h₂.2).marks h₃.2).trans hc₄).marks h₅.2
  have hread := (((hsignature.marks h₆.2).trans hc₇).marks h₈.2).trans hc₉
  have hbelow : Consumes state
      (word :: name :: opened :: parameterTokens ++ closed :: colon :: resultTokens ++
        mark :: bodyTokens)
      (parameters ++ [result, body]) (members ++ [resultTree, bodyTree]) s₉ := by
    simpa using hread
  refine (addFrom_consumes hbelow).mono fun id after ha => ?_
  have hderives := Symbol.Derives.function
    (by simp [h₁.1, h₂.1, h₃.1, h₅.1, h₆.1, h₈.1] :
      [word, name, opened, closed, colon, mark].map Token.kind =
        [.funWord, .identifier, .openParen, .closeParen, .colon, .assignment]) hd₄ hd₇ hd₉
  exact ⟨_, _, hderives, ha.1⟩

/-- Under every bound on nested calls, what is read is derived. -/
theorem all : ∀ fuel : Nat, Derived fuel
  | 0 => zero
  | fuel + 1 =>
    have ih := all fuel
    { expression := ih.expression_step
      expressions := ih.expressions_step
      operation := ih.operation_step
      continued := ih.continued_step
      operand := ih.operand_step
      primary := ih.primary_step
      call := ih.call_step
      binary := ih.binary_step
      index := ih.index_step
      prefixed := ih.prefixed_step
      block := ih.block_step
      curly := ih.curly_step
      assignment := ih.assignment_step
      conditional := ih.conditional_step
      whileLoop := ih.whileLoop_step
      forLoop := ih.forLoop_step
      definitions := ih.definitions_step
      definitionList := ih.definitionList_step
      definition := ih.definition_step
      function := ih.function_step }

end Derived

/-- A program that is read is derived from all tokens. -/
theorem program_derives (hl : Lexed state.tokens) :
    program.Runs Any state fun root after => ∃ tree,
      Symbol.source.Derives state.tokens [tree] ∧ after.arena.Holds [root] [tree] := by
  simp only [program, currentKind, current, Pass.runs_bind, Pass.runs_get, Pass.runs_pure]
  have hdefinitions : (definitions .pins).Runs Any state fun root after => ∃ tokens members,
      Symbol.definitions.Derives tokens members ∧
        Consumes state tokens [root] [.node .definitions members] after :=
    runs_within fun fuel => (Derived.all fuel).definitions hl
  refine hdefinitions.mono fun root after h => ?_
  obtain ⟨tokens, members, hd, hc⟩ := h
  split
  · next he =>
    have hlast : state.tokens = tokens ++ [after.stream.current] := by
      have hnil : after.stream.upcoming = [] := Lexed.eq_nil hc.lexed he
      rw [hc.split, ParserState.tokens, hnil]
    refine ⟨_, ?_, hc.holds⟩
    rw [hlast]
    exact .program he hd
  · trivial

end Pins.Parser
