import Pins.Proofs.Operable

/-!
# What can be derived is read

Operands, functions and programs are read if their parts are, and with that everything that can be
derived: the tree of the derivation stands below the node that is returned (`of_derives`). The only
thing that could stop the reading is the bound on nested calls, which `program_runs` excludes.
-/

namespace Pins.Parser

variable {state : ParserState} {symbol : Symbol} {tokens rest : List Token}
  {trees : List SyntaxTree} {tree : SyntaxTree} {token next : Token} {fuel : Nat}

namespace Readable

/-! ### Atoms -/

/-- A literal, a name or a call is an operand. -/
theorem primary {promised : NodeId → ParserState → Prop}
    (h : ∀ fuel, (primaryWithin .pins (fuel + 1)).Runs (Pass.Reports Exhausts) state promised)
    (fuel : Nat) :
    (operandWithin .pins fuel .primary).Runs (Pass.Reports Exhausts) state promised := by
  rcases fuel with _ | _ | fuel
  · exact ⟨_, rfl⟩
  · exact ⟨_, rfl⟩
  · exact h fuel

/-- A literal is read if its token is one of its class. -/
theorem literal {word : Atom} (hform : Grammar.pins.operand? token.kind = some .primary)
    (hne : token.kind ≠ .eof)
    (hprimary : ∀ {fuel : Nat} {state : ParserState} {promised : NodeId → ParserState → Prop},
      state.stream.current = token →
      (Parser.literal word).Runs (Pass.Reports Exhausts) state promised →
      (primaryWithin .pins (fuel + 1)).Runs (Pass.Reports Exhausts) state promised) :
    Readable .atom [token] [.node (.literal token.value word) []] := by
  intro state next rest hl hs _
  have hcurrent := current_eq hs
  refine ⟨.primary, by rw [hcurrent, hform], fun fuel => .intro hs (primary (fun fuel => ?_) fuel)⟩
  refine hprimary hcurrent ?_
  rw [← hcurrent] at hne ⊢
  exact literal_consumes hl hne

theorem integer {value : Nat} (hkind : token.kind = .integer)
    (hvalue : Text.digits? token.value.toList = some value) (hfits : value ≤ 2147483647) :
    Readable .atom [token] [.node (.literal token.value .integer) []] := by
  refine literal (by rw [hkind]; rfl) (by rw [hkind]; decide) fun {fuel state promised} hc h => ?_
  simp only [primaryWithin, currentKind, current, Pass.runs_bind, Pass.runs_get, Pass.runs_pure,
    hc, hkind, integerLiteral]
  rw [if_pos ((Text.isSome_signed?_iff hvalue).mpr hfits)]
  exact h

theorem logical (hkind : token.kind = .logical) :
    Readable .atom [token] [.node (.literal token.value .logical) []] := by
  refine literal (by rw [hkind]; rfl) (by rw [hkind]; decide) fun {fuel state promised} hc h => ?_
  simp only [primaryWithin, currentKind, current, Pass.runs_bind, Pass.runs_get, Pass.runs_pure,
    hc, hkind]
  exact h

theorem string (hkind : token.kind = .string) :
    Readable .atom [token] [.node (.literal token.value .string) []] := by
  refine literal (by rw [hkind]; rfl) (by rw [hkind]; decide) fun {fuel state promised} hc h => ?_
  simp only [primaryWithin, currentKind, current, Pass.runs_bind, Pass.runs_get, Pass.runs_pure,
    hc, hkind]
  exact h

theorem name (hkind : token.kind = .identifier) :
    Readable .atom [token] [.node (.name token.value) []] := by
  intro state next rest hl hs hparen
  have hk : state.stream.current.kind = .identifier := by rw [current_eq hs, hkind]
  refine ⟨.primary, by rw [hk]; rfl, fun fuel => .intro hs (primary (fun fuel => ?_) fuel)⟩
  simp only [primaryWithin, currentKind, current, Pass.runs_bind, Pass.runs_get, Pass.runs_pure,
    hk]
  refine (advance_accepts hl hs (by rw [hkind]; decide)).mono fun found s₁ h₁ => ?_
  obtain ⟨rfl, hc₁, hs₁⟩ := h₁
  rw [current_eq hs₁, if_neg hparen]
  exact (add_consumes hc₁).mono fun id after ha => ha.1

theorem call {name opened closed : Token} {arguments : List Token}
    (hmarks : [name, opened, closed].map Token.kind = [.identifier, .openParen, .closeParen])
    (hderives : (Symbol.optional .expressions).Derives arguments trees)
    (harguments : Readable (.optional .expressions) arguments trees) :
    Readable .atom (name :: opened :: arguments ++ [closed]) [.node (.call name.value) trees] := by
  intro state next rest hl hs _
  simp only [List.map_cons, List.map_nil, List.cons.injEq, and_true] at hmarks
  obtain ⟨hname, hopened, hclosed⟩ := hmarks
  have hk : state.stream.current.kind = .identifier := by rw [current_eq hs, hname]
  refine ⟨.primary, by rw [hk]; rfl, fun fuel => .intro hs (primary (fun fuel => ?_) fuel)⟩
  simp only [List.append_assoc, List.cons_append, List.nil_append] at hs
  simp only [primaryWithin, currentKind, current, Pass.runs_bind, Pass.runs_get, Pass.runs_pure,
    hk]
  refine (advance_accepts hl hs (by rw [hname]; decide)).mono fun found s₁ h₁ => ?_
  obtain ⟨rfl, hc₁, hs₁⟩ := h₁
  rw [current_eq hs₁, if_pos hopened]
  cases fuel with
  | zero => exact ⟨_, rfl⟩
  | succ fuel =>
    simp only [callWithin, currentKind, current, Pass.runs_bind, Pass.runs_get, Pass.runs_pure]
    refine (expect_accepts hc₁.lexed hs₁ hopened (by decide)).mono fun found s₂ h₂ => ?_
    obtain ⟨rfl, hc₂, hs₂⟩ := h₂
    have hclose : ∀ (ids : List NodeId) (s₃ : ParserState),
        Consumes s₂ arguments ids trees s₃ → s₃.tokens = closed :: next :: rest →
        Pass.Runs (Pass.Reports Exhausts) (do
          let _ ← expectBut .closeParen "expected `,` or `)` in argument list"
          addFrom name.span (.expression (.call name.value ids))) s₃ fun id after =>
            Consumes state (name :: opened :: arguments ++ [closed]) [id]
              [.node (.call name.value) trees] after := by
      intro ids s₃ hc₃ hs₃
      simp only [Pass.runs_bind]
      refine (expectBut_accepts hc₃.lexed hs₃ hclosed (by decide)).mono fun found s₄ h₄ => ?_
      obtain ⟨rfl, hc₄, _⟩ := h₄
      have hread := ((hc₁.marks hc₂).trans hc₃).marks hc₄
      exact (addFrom_consumes hread).mono fun id after ha => ha.1
    cases hderives with
    | absent =>
      rw [current_eq hs₂, if_pos hclosed]
      simp only [pure_bind]
      exact hclose [] s₂ (.refl hc₂.lexed) hs₂
    | present hsome =>
      obtain ⟨first, others, rfl, hfirst⟩ := hsome.begins rfl
      have hne : first.kind ≠ .closeParen := fun he => by simp [he, Grammar.pins] at hfirst
      have hread : Readable .expressions (first :: others) trees :=
        harguments.resolve_left fun hnone => List.cons_ne_nil _ _ hnone.1
      rw [current_eq hs₂, if_neg hne, Pass.runs_bind]
      refine (hread .expressions hc₂.lexed hs₂ (by rw [hclosed]; decide)
        (by rw [hclosed]; decide)).mono fun ids s₃ h₃ => ?_
      exact hclose ids s₃ h₃.1 h₃.2

theorem block {opened closed : Token} {expressions : List Token}
    (hmarks : [opened, closed].map Token.kind = [.openParen, .closeParen])
    (hexpressions : Readable .expressions expressions trees) :
    Readable .atom (opened :: expressions ++ [closed]) [.node .block trees] := by
  intro state next rest hl hs _
  simp only [List.map_cons, List.map_nil, List.cons.injEq, and_true] at hmarks
  obtain ⟨hopened, hclosed⟩ := hmarks
  refine ⟨.block, by rw [current_eq hs, hopened]; rfl, fun fuel => .intro hs ?_⟩
  simp only [List.append_assoc, List.cons_append, List.nil_append] at hs
  rcases fuel with _ | _ | fuel
  · exact ⟨_, rfl⟩
  · exact ⟨_, rfl⟩
  · simp only [operandWithin, blockWithin, Pass.runs_bind]
    refine (expect_accepts hl hs hopened (by decide)).mono fun found s₁ h₁ => ?_
    obtain ⟨rfl, hc₁, hs₁⟩ := h₁
    refine (hexpressions .expressions hc₁.lexed hs₁ (by rw [hclosed]; decide)
      (by rw [hclosed]; decide)).mono fun ids s₂ h₂ => ?_
    obtain ⟨hc₂, hs₂⟩ := h₂
    refine (expectBut_accepts hc₂.lexed hs₂ hclosed (by decide)).mono fun found s₃ h₃ => ?_
    obtain ⟨rfl, hc₃, _⟩ := h₃
    exact (addFrom_consumes ((hc₁.trans hc₂).marks hc₃)).mono fun id after ha => ha.1

/-! ### Operands in curly brackets -/

end Readable

/-- What is read behind an opening bracket, by the kind of the first token there. -/
def formWithin (fuel : Nat) : TokenKind → Parse Expression
  | .ifWord => conditionalWithin .pins fuel
  | .whileWord => whileWithin .pins fuel
  | .forWord => forWithin .pins fuel
  | _ => assignmentWithin .pins fuel

/-- The function for what stands between curly brackets reads it to a form of a node with trees
below it. -/
def FormReadable (inner : List Token) (form : NodeForm) (trees : List SyntaxTree) : Prop :=
  ∀ ⦃fuel : Nat⦄ ⦃state : ParserState⦄ ⦃next : Token⦄ ⦃rest : List Token⦄, Lexed state.tokens →
    state.tokens = inner ++ next :: rest → next.kind = .closeCurly →
    (formWithin fuel state.stream.current.kind).Runs (Pass.Reports Exhausts) state fun item after =>
      Consumes state inner item.children trees after ∧ (NodeKind.expression item).form = form

namespace Readable

/-- An operand in curly brackets is read in the form that its first token chooses. -/
theorem curly {opened closed : Token} {inner : List Token} {form : NodeForm}
    (hopened : opened.kind = .openCurly) (hclosed : closed.kind = .closeCurly)
    (hform : FormReadable inner form trees) :
    Readable .atom (opened :: inner ++ [closed]) [.node form trees] := by
  intro state next rest hl hs _
  refine ⟨.curly, by rw [current_eq hs, hopened]; rfl, fun fuel => .intro hs ?_⟩
  simp only [List.append_assoc, List.cons_append, List.nil_append] at hs
  rcases fuel with _ | _ | fuel
  · exact ⟨_, rfl⟩
  · exact ⟨_, rfl⟩
  · have hcurly : curlyWithin .pins (fuel + 1) = (do
        let first ← expect .openCurly
        let item ← formWithin fuel (← currentKind)
        let _ ← expectBut .closeCurly "expected `\x7d`"
        addFrom first.span (.expression item)) := by
      rw [curlyWithin]
      congr
      funext first
      congr
      funext kind
      cases kind <;> rfl
    rw [operandWithin, hcurly]
    simp only [currentKind, current, Pass.runs_bind, Pass.runs_get, Pass.runs_pure]
    refine (expect_accepts hl hs hopened (by decide)).mono fun found s₁ h₁ => ?_
    obtain ⟨rfl, hc₁, hs₁⟩ := h₁
    refine (hform hc₁.lexed hs₁ hclosed).mono fun item s₂ h₂ => ?_
    obtain ⟨hc₂, rfl⟩ := h₂
    refine (expectBut_accepts hc₂.lexed (hc₂.tokens_eq hs₁) hclosed (by decide)).mono
      fun found s₃ h₃ => ?_
    obtain ⟨rfl, hc₃, _⟩ := h₃
    exact (addFrom_consumes ((hc₁.trans hc₂).marks hc₃)).mono fun id after ha => ha.1

end Readable

namespace FormReadable

theorem assignment {mark : Token} {left right : List Token} {leftTree rightTree : SyntaxTree}
    (hmark : mark.kind = .assignment) (hderives : Symbol.expression.Derives left [leftTree])
    (hleft : Readable .expression left [leftTree])
    (hright : Readable .expression right [rightTree]) :
    FormReadable (left ++ mark :: right) (.binary .assign) [leftTree, rightTree] := by
  intro fuel state next rest hl hs hnext
  rw [List.append_assoc, List.cons_append] at hs
  have hform : formWithin fuel state.stream.current.kind = assignmentWithin .pins fuel := by
    obtain ⟨first, others, rfl, hfirst⟩ := hderives.begins rfl
    rw [current_eq hs]
    cases hk : first.kind <;> rw [hk] at hfirst <;> first | rfl | cases hfirst
  rw [hform]
  cases fuel with
  | zero => exact ⟨_, rfl⟩
  | succ fuel =>
    simp only [assignmentWithin, Pass.runs_bind, Pass.runs_pure]
    refine (hleft hl hs (by rw [hmark]; decide)).mono fun id s₁ h₁ => ?_
    obtain ⟨hc₁, hs₁⟩ := h₁
    refine (expectBut_accepts hc₁.lexed hs₁ hmark (by decide)).mono fun found s₂ h₂ => ?_
    obtain ⟨rfl, hc₂, hs₂⟩ := h₂
    refine (hright hc₂.lexed hs₂ (by rw [hnext]; decide)).mono fun id s₃ h₃ => ?_
    exact ⟨by simpa [Expression.children] using (hc₁.marks hc₂).trans h₃.1, rfl⟩

/-- A condition and its branch are read, and reading goes on behind them. -/
theorem firstBranch {word thenWord : Token} {condition branch : List Token}
    {conditionTree branchTree : SyntaxTree} {promised : Expression → ParserState → Prop}
    (hword : word.kind = .ifWord) (hthen : thenWord.kind = .thenWord)
    (hcondition : Readable .expression condition [conditionTree])
    (hbranch : Readable .expression branch [branchTree]) (hl : Lexed state.tokens)
    (hs : state.tokens = word :: (condition ++ thenWord :: (branch ++ next :: rest)))
    (hnext : next.kind.closes = true)
    (hgo : ∀ fuel first second after,
      Consumes state (word :: condition ++ thenWord :: branch) [first, second]
        [conditionTree, branchTree] after → after.tokens = next :: rest →
      Pass.Runs (Pass.Reports Exhausts)
        (if next.kind = .elseWord then do
          let _ ← advance
          let other ← expressionWithin .pins fuel
          return .conditional first second (some other)
        else return .conditional first second none) after promised) :
    (formWithin fuel state.stream.current.kind).Runs (Pass.Reports Exhausts) state promised := by
  have hform : formWithin fuel state.stream.current.kind = conditionalWithin .pins fuel := by
    rw [current_eq hs, hword]
    rfl
  rw [hform]
  cases fuel with
  | zero => exact ⟨_, rfl⟩
  | succ fuel =>
    simp only [conditionalWithin, currentKind, current, Pass.runs_bind, Pass.runs_get,
      Pass.runs_pure]
    refine (expect_accepts hl hs hword (by decide)).mono fun found s₁ h₁ => ?_
    obtain ⟨rfl, hc₁, hs₁⟩ := h₁
    refine (hcondition hc₁.lexed hs₁ (by rw [hthen]; decide)).mono fun first s₂ h₂ => ?_
    obtain ⟨hc₂, hs₂⟩ := h₂
    refine (expectBut_accepts hc₂.lexed hs₂ hthen (by decide)).mono fun found s₃ h₃ => ?_
    obtain ⟨rfl, hc₃, hs₃⟩ := h₃
    refine (hbranch hc₃.lexed hs₃ hnext).mono fun second s₄ h₄ => ?_
    obtain ⟨hc₄, hs₄⟩ := h₄
    rw [current_eq hs₄]
    refine hgo fuel first second s₄ ?_ hs₄
    simpa using ((hc₁.trans hc₂).marks hc₃).trans hc₄

theorem conditional {word thenWord : Token} {condition branch : List Token}
    {conditionTree branchTree : SyntaxTree} (hword : word.kind = .ifWord)
    (hthen : thenWord.kind = .thenWord)
    (hcondition : Readable .expression condition [conditionTree])
    (hbranch : Readable .expression branch [branchTree]) :
    FormReadable (word :: condition ++ thenWord :: branch) .conditional
      [conditionTree, branchTree] := by
  intro fuel state next rest hl hs hnext
  simp only [List.append_assoc, List.cons_append] at hs
  refine firstBranch hword hthen hcondition hbranch hl hs (by rw [hnext]; decide)
    fun fuel first second s₁ hc₁ _ => ?_
  rw [hnext, if_neg (by decide)]
  exact ⟨hc₁, rfl⟩

theorem choice {word thenWord elseWord : Token} {condition branch other : List Token}
    {conditionTree branchTree otherTree : SyntaxTree} (hword : word.kind = .ifWord)
    (hthen : thenWord.kind = .thenWord) (helse : elseWord.kind = .elseWord)
    (hcondition : Readable .expression condition [conditionTree])
    (hbranch : Readable .expression branch [branchTree])
    (hother : Readable .expression other [otherTree]) :
    FormReadable (word :: condition ++ thenWord :: branch ++ elseWord :: other) .conditional
      [conditionTree, branchTree, otherTree] := by
  intro fuel state next rest hl hs hnext
  simp only [List.append_assoc, List.cons_append] at hs
  refine firstBranch hword hthen hcondition hbranch hl hs (by rw [helse]; decide)
    fun fuel first second s₁ hc₁ hs₁ => ?_
  rw [if_pos helse]
  simp only [Pass.runs_bind, Pass.runs_pure]
  refine (advance_accepts hc₁.lexed hs₁ (by rw [helse]; decide)).mono fun found s₂ h₂ => ?_
  obtain ⟨rfl, hc₂, hs₂⟩ := h₂
  refine (hother hc₂.lexed hs₂ (by rw [hnext]; decide)).mono fun third s₃ h₃ => ?_
  exact ⟨by simpa [Expression.children] using (hc₁.marks hc₂).trans h₃.1, rfl⟩

theorem whileLoop {word colon : Token} {condition body : List Token}
    {conditionTree bodyTree : SyntaxTree} (hword : word.kind = .whileWord)
    (hcolon : colon.kind = .colon) (hcondition : Readable .expression condition [conditionTree])
    (hbody : Readable .expression body [bodyTree]) :
    FormReadable (word :: condition ++ colon :: body) .whileLoop [conditionTree, bodyTree] := by
  intro fuel state next rest hl hs hnext
  simp only [List.append_assoc, List.cons_append] at hs
  have hform : formWithin fuel state.stream.current.kind = whileWithin .pins fuel := by
    rw [current_eq hs, hword]
    rfl
  rw [hform]
  cases fuel with
  | zero => exact ⟨_, rfl⟩
  | succ fuel =>
    simp only [whileWithin, Pass.runs_bind, Pass.runs_pure]
    refine (expect_accepts hl hs hword (by decide)).mono fun found s₁ h₁ => ?_
    obtain ⟨rfl, hc₁, hs₁⟩ := h₁
    refine (hcondition hc₁.lexed hs₁ (by rw [hcolon]; decide)).mono fun id s₂ h₂ => ?_
    obtain ⟨hc₂, hs₂⟩ := h₂
    refine (expectBut_accepts hc₂.lexed hs₂ hcolon (by decide)).mono fun found s₃ h₃ => ?_
    obtain ⟨rfl, hc₃, hs₃⟩ := h₃
    refine (hbody hc₃.lexed hs₃ (by rw [hnext]; decide)).mono fun id s₄ h₄ => ?_
    exact ⟨by simpa [Expression.children] using ((hc₁.trans hc₂).marks hc₃).trans h₄.1, rfl⟩

theorem forLoop {word counter mark comma second colon : Token} {low high step body : List Token}
    {lowTree highTree stepTree bodyTree : SyntaxTree}
    (hword : word.kind = .forWord) (hcounter : counter.kind = .identifier)
    (hmark : mark.kind = .assignment) (hcomma : comma.kind = .comma)
    (hsecond : second.kind = .comma) (hcolon : colon.kind = .colon)
    (hlow : Readable .expression low [lowTree]) (hhigh : Readable .expression high [highTree])
    (hstep : Readable .expression step [stepTree]) (hbody : Readable .expression body [bodyTree]) :
    FormReadable
      (word :: counter :: mark :: low ++ comma :: high ++ second :: step ++ colon :: body)
      .forLoop [.node (.name counter.value) [], lowTree, highTree, stepTree, bodyTree] := by
  intro fuel state next rest hl hs hnext
  simp only [List.append_assoc, List.cons_append] at hs
  have hform : formWithin fuel state.stream.current.kind = forWithin .pins fuel := by
    rw [current_eq hs, hword]
    rfl
  rw [hform]
  cases fuel with
  | zero => exact ⟨_, rfl⟩
  | succ fuel =>
    simp only [forWithin, Parser.counter, Pass.runs_bind, Pass.runs_pure]
    refine (expect_accepts hl hs hword (by decide)).mono fun found s₁ h₁ => ?_
    obtain ⟨rfl, hc₁, hs₁⟩ := h₁
    refine (expectBut_accepts hc₁.lexed hs₁ hcounter (by decide)).mono fun found s₂ h₂ => ?_
    obtain ⟨rfl, hc₂, hs₂⟩ := h₂
    refine (add_consumes hc₂).mono fun name s₃ h₃ => ?_
    obtain ⟨hc₃, hstream⟩ := h₃
    have hs₃ : s₃.tokens = mark :: (low ++ comma :: (high ++ second :: (step ++ colon ::
        (body ++ next :: rest)))) := by
      simpa [ParserState.tokens, hstream] using hs₂
    refine (expectBut_accepts hc₃.lexed hs₃ hmark (by decide)).mono fun found s₄ h₄ => ?_
    obtain ⟨rfl, hc₄, hs₄⟩ := h₄
    refine (hlow hc₄.lexed hs₄ (by rw [hcomma]; decide)).mono fun id s₅ h₅ => ?_
    obtain ⟨hc₅, hs₅⟩ := h₅
    refine (expectBut_accepts hc₅.lexed hs₅ hcomma (by decide)).mono fun found s₆ h₆ => ?_
    obtain ⟨rfl, hc₆, hs₆⟩ := h₆
    refine (hhigh hc₆.lexed hs₆ (by rw [hsecond]; decide)).mono fun id s₇ h₇ => ?_
    obtain ⟨hc₇, hs₇⟩ := h₇
    refine (expectBut_accepts hc₇.lexed hs₇ hsecond (by decide)).mono fun found s₈ h₈ => ?_
    obtain ⟨rfl, hc₈, hs₈⟩ := h₈
    refine (hstep hc₈.lexed hs₈ (by rw [hcolon]; decide)).mono fun id s₉ h₉ => ?_
    obtain ⟨hc₉, hs₉⟩ := h₉
    refine (expectBut_accepts hc₉.lexed hs₉ hcolon (by decide)).mono fun found s₁₀ h₁₀ => ?_
    obtain ⟨rfl, hc₁₀, hs₁₀⟩ := h₁₀
    refine (hbody hc₁₀.lexed hs₁₀ (by rw [hnext]; decide)).mono fun id s h => ?_
    have hbounds := ((((hc₁.trans hc₃).marks hc₄).trans hc₅).marks hc₆).trans hc₇
    have hread := (((hbounds.marks hc₈).trans hc₉).marks hc₁₀).trans h.1
    exact ⟨by simpa [NodeKind.form, Expression.children] using hread, rfl⟩

end FormReadable

namespace Readable

/-! ### Functions and programs -/

/-- The parameters of a function are read, if there are any. -/
theorem parameters (hderives : (Symbol.optional .parameters).Derives tokens trees)
    (h : Readable (.optional .parameters) tokens trees) (hl : Lexed state.tokens)
    (hs : state.tokens = tokens ++ next :: rest) (hnext : next.kind = .closeParen) :
    Accepts (Parser.parameters .pins) id state tokens trees (next :: rest) := by
  simp only [Accepts, Parser.parameters, currentKind, current, Pass.runs_bind, Pass.runs_get,
    Pass.runs_pure]
  cases hderives with
  | absent =>
    rw [current_eq hs, if_pos hnext]
    exact ⟨.refl hl, hs⟩
  | present hsome =>
    obtain ⟨first, others, rfl, hfirst⟩ := hsome.begins_parameters
    have hread : Readable .parameters (first :: others) trees :=
      h.resolve_left fun hnone => List.cons_ne_nil _ _ hnone.1
    rw [current_eq hs, hfirst, if_neg (by decide)]
    exact runs_within fun fuel => hread .parameters hl hs (by rw [hnext]; decide)
      (by rw [hnext]; decide)

theorem function {word name opened closed colon mark : Token}
    {parameters result body : List Token} {members : List SyntaxTree}
    {resultTree bodyTree : SyntaxTree}
    (hmarks : [word, name, opened, closed, colon, mark].map Token.kind =
      [.funWord, .identifier, .openParen, .closeParen, .colon, .assignment])
    (hderives : (Symbol.optional .parameters).Derives parameters members)
    (hparameters : Readable (.optional .parameters) parameters members)
    (hresult : Readable .type result [resultTree])
    (hbody : Readable .expression body [bodyTree]) :
    Readable .definition
      (word :: name :: opened :: parameters ++ closed :: colon :: result ++ mark :: body)
      [.node (.function name.value) (members ++ [resultTree, bodyTree])] := by
  intro fuel state next rest hl hs hnext
  refine .intro hs ?_
  simp only [List.append_assoc, List.cons_append] at hs
  simp only [List.map_cons, List.map_nil, List.cons.injEq, and_true] at hmarks
  obtain ⟨hword, hname, hopened, hclosed, hcolon, hmark⟩ := hmarks
  have hform : Grammar.pins.definition? word.kind = some .function := by rw [hword]; rfl
  refine definition_chosen hs hform fun fuel => ?_
  cases fuel with
  | zero => exact ⟨_, rfl⟩
  | succ fuel =>
    simp only [functionDefinitionWithin, Pass.runs_bind]
    refine (expect_accepts hl hs hword (by decide)).mono fun found s₁ h₁ => ?_
    obtain ⟨rfl, hc₁, hs₁⟩ := h₁
    refine (expectBut_accepts hc₁.lexed hs₁ hname (by decide)).mono fun found s₂ h₂ => ?_
    obtain ⟨rfl, hc₂, hs₂⟩ := h₂
    refine (expectBut_accepts hc₂.lexed hs₂ hopened (by decide)).mono fun found s₃ h₃ => ?_
    obtain ⟨rfl, hc₃, hs₃⟩ := h₃
    refine (Readable.parameters hderives hparameters hc₃.lexed hs₃ hclosed).mono
      fun ids s₄ h₄ => ?_
    obtain ⟨hc₄, hs₄⟩ := h₄
    refine (expectBut_accepts hc₄.lexed hs₄ hclosed (by decide)).mono fun found s₅ h₅ => ?_
    obtain ⟨rfl, hc₅, hs₅⟩ := h₅
    refine (expectBut_accepts hc₅.lexed hs₅ hcolon (by decide)).mono fun found s₆ h₆ => ?_
    obtain ⟨rfl, hc₆, hs₆⟩ := h₆
    have htype : Accepts (Parser.type .pins) ([·]) s₆ result [resultTree]
        (mark :: (body ++ next :: rest)) :=
      runs_within fun fuel => hresult hc₆.lexed hs₆
    refine htype.mono fun written s₇ h₇ => ?_
    obtain ⟨hc₇, hs₇⟩ := h₇
    refine (expectBut_accepts hc₇.lexed hs₇ hmark (by decide)).mono fun found s₈ h₈ => ?_
    obtain ⟨rfl, hc₈, hs₈⟩ := h₈
    refine (hbody hc₈.lexed hs₈ hnext).mono fun code s₉ h₉ => ?_
    have hsignature := ((((hc₁.marks hc₂).marks hc₃).trans hc₄).marks hc₅).marks hc₆
    have hread := ((hsignature.trans hc₇).marks hc₈).trans h₉.1
    have hbelow : Consumes state
        (word :: name :: opened :: parameters ++ closed :: colon :: result ++ mark :: body)
        (ids ++ [written, code]) (members ++ [resultTree, bodyTree]) s₉ := by
      simpa using hread
    exact (addFrom_consumes hbelow).mono fun id after ha => ha.1

theorem program {last : Token} {members : List SyntaxTree} (hlast : last.kind = .eof)
    (h : Readable .definitions tokens members) :
    Readable .source (tokens ++ [last]) [.node .definitions members] := by
  intro state hl hs
  simp only [Parser.program, currentKind, current, Pass.runs_bind, Pass.runs_get, Pass.runs_pure]
  have hdefinitions : Accepts (Parser.definitions .pins) ([·]) state tokens
      [.node .definitions members] [last] :=
    runs_within fun fuel => h.definitions hl hs (by rw [hlast]; decide) (by rw [hlast]; decide)
  refine hdefinitions.mono fun root s₁ h₁ => ?_
  rw [current_eq h₁.2, if_pos hlast]
  exact h₁.1.holds

/-- Whatever is derived from a symbol is read by the function for it. -/
theorem of_derives (h : symbol.Derives tokens trees) : Readable symbol tokens trees := by
  induction h with
  | absent => exact .inl ⟨rfl, rfl⟩
  | present _ ih => exact .inr ih
  | last _ ih => exact last ih
  | more hbetween _ _ ih ihothers => exact more hbetween ih ihothers
  | namedType hname => exact namedType hname
  | atomType hword => exact atomType hword
  | arrayType hmarks hsize hfits _ ih => exact arrayType hmarks hsize hfits ih
  | parameter hmarks _ ih => exact parameter hmarks ih
  | operation _ ih => exact operation ih
  | whereClause hmarks _ _ ih ihdefinitions => exact whereClause hmarks ih ihdefinitions
  | tighter hinner _ ih => exact tighter hinner ih
  | chained hchains hmark hinner _ _ ihleft ihright =>
    exact chained hchains hmark hinner ihleft ihright
  | comparison hmark _ _ ihleft ihright => exact comparison hmark ihleft ihright
  | prefixed hmark _ ih => exact prefixed hmark ih
  | index hmarks _ _ iharray ihindex => exact index hmarks iharray ihindex
  | operand _ ih => exact operand ih
  | integer hkind hvalue hfits => exact integer hkind hvalue hfits
  | logical hkind => exact logical hkind
  | string hkind => exact string hkind
  | name hkind => exact name hkind
  | call hmarks harguments ih => exact call hmarks harguments ih
  | block hmarks _ ih => exact block hmarks ih
  | assignment hmarks hleft _ ihleft ihright =>
    simp only [List.map_cons, List.map_nil, List.cons.injEq, and_true] at hmarks
    have hform := FormReadable.assignment hmarks.2.1 hleft ihleft ihright
    exact curly hmarks.1 hmarks.2.2 hform
  | conditional hmarks _ _ ihcondition ihbranch =>
    simp only [List.map_cons, List.map_nil, List.cons.injEq, and_true] at hmarks
    have hform := FormReadable.conditional hmarks.2.1 hmarks.2.2.1 ihcondition ihbranch
    exact curly hmarks.1 hmarks.2.2.2 hform
  | choice hmarks _ _ _ ihcondition ihbranch ihother =>
    simp only [List.map_cons, List.map_nil, List.cons.injEq, and_true] at hmarks
    have hform := FormReadable.choice hmarks.2.1 hmarks.2.2.1 hmarks.2.2.2.1 ihcondition ihbranch
      ihother
    exact curly hmarks.1 hmarks.2.2.2.2 hform
  | whileLoop hmarks _ _ ihcondition ihbody =>
    simp only [List.map_cons, List.map_nil, List.cons.injEq, and_true] at hmarks
    have hform := FormReadable.whileLoop hmarks.2.1 hmarks.2.2.1 ihcondition ihbody
    exact curly hmarks.1 hmarks.2.2.2 hform
  | forLoop hmarks _ _ _ _ ihlow ihhigh ihstep ihbody =>
    simp only [List.map_cons, List.map_nil, List.cons.injEq, and_true] at hmarks
    obtain ⟨hopened, hword, hcounter, hmark, hcomma, hsecond, hcolon, hclosed⟩ := hmarks
    have hform := FormReadable.forLoop hword hcounter hmark hcomma hsecond hcolon ihlow ihhigh
      ihstep ihbody
    exact curly hopened hclosed hform
  | typeDefinition hmarks _ ih => exact typeDefinition hmarks ih
  | varDefinition hmarks _ ih => exact varDefinition hmarks ih
  | function hmarks hparameters _ _ ihparameters ihresult ihbody =>
    exact function hmarks hparameters ihparameters ihresult ihbody
  | program hlast _ ih => exact program hlast ih

end Readable

end Pins.Parser
