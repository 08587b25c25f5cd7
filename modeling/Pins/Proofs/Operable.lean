import Pins.Proofs.Derived
import Pins.Proofs.Parsed

/-!
# Operations are read

What it means that tokens derived from a symbol are read by the function for it, whatever they are
followed by as long as it does not continue them (`Readable`), and that types, lists, operations and
expressions are, if their parts are.

Operators are again what needs care: how far an operation is read does not depend on its own tokens
alone, but on the power above which operators count. `Operable` therefore says of an operation that
reading goes on behind it, with its tree as the left operand of whatever follows.
-/

namespace Pins

/-- Tokens of a kind neither continue an expression nor belong to what may follow one. -/
def TokenKind.closes (kind : TokenKind) : Bool :=
  kind.hold == 0 && kind != .openParen && kind != .openCurly

theorem TokenKind.closes_iff (kind : TokenKind) :
    kind.closes = true ↔ kind.hold = 0 ∧ kind ≠ .openParen ∧ kind ≠ .openCurly := by
  simp [closes, and_assoc]

namespace Symbol

/-- The symbols whose tokens begin with an operand. -/
def isOperation : Symbol → Bool
  | .expression | .operation _ | .atom | .separated .expression _ => true
  | _ => false

/-- The first token of an operation begins an operand. -/
theorem Derives.begins {symbol : Symbol} {tokens : List Token} {trees : List SyntaxTree}
    (h : symbol.Derives tokens trees) (hs : symbol.isOperation = true) :
    ∃ first rest, tokens = first :: rest ∧
      (Grammar.pins.operand? first.kind).isSome = true := by
  induction h with
  | @last symbol mark tokens trees h ih =>
    cases symbol <;> first | exact ih rfl | cases hs
  | @more symbol mark between tokens others trees following hbetween h hothers ih _ =>
    have hitem : symbol.isOperation = true := by cases symbol <;> first | rfl | cases hs
    obtain ⟨first, rest, rfl, hfirst⟩ := ih hitem
    exact ⟨first, _, rfl, hfirst⟩
  | operation _ ih => exact ih rfl
  | tighter _ _ ih => exact ih rfl
  | operand _ ih => exact ih rfl
  | whereClause _ _ _ ih _ =>
    obtain ⟨first, rest, rfl, hfirst⟩ := ih rfl
    exact ⟨first, _, rfl, hfirst⟩
  | chained _ _ _ _ _ ih _ =>
    obtain ⟨first, rest, rfl, hfirst⟩ := ih rfl
    exact ⟨first, _, rfl, hfirst⟩
  | comparison _ _ _ ih _ =>
    obtain ⟨first, rest, rfl, hfirst⟩ := ih rfl
    exact ⟨first, _, rfl, hfirst⟩
  | index _ _ _ ih _ =>
    obtain ⟨first, rest, rfl, hfirst⟩ := ih rfl
    exact ⟨first, _, rfl, hfirst⟩
  | @prefixed operator mark tokens tree hmark h _ =>
    refine ⟨mark, tokens, rfl, ?_⟩
    cases hk : mark.kind <;> rw [hk] at hmark <;> first | rfl | cases hmark
  | integer hkind => exact ⟨_, _, rfl, by rw [hkind]; rfl⟩
  | logical hkind => exact ⟨_, _, rfl, by rw [hkind]; rfl⟩
  | string hkind => exact ⟨_, _, rfl, by rw [hkind]; rfl⟩
  | name hkind => exact ⟨_, _, rfl, by rw [hkind]; rfl⟩
  | call hmarks => exact ⟨_, _, rfl, by rw [(List.cons.inj hmarks).1]; rfl⟩
  | block hmarks => exact ⟨_, _, rfl, by rw [(List.cons.inj hmarks).1]; rfl⟩
  | assignment hmarks => exact ⟨_, _, rfl, by rw [(List.cons.inj hmarks).1]; rfl⟩
  | conditional hmarks => exact ⟨_, _, rfl, by rw [(List.cons.inj hmarks).1]; rfl⟩
  | choice hmarks => exact ⟨_, _, rfl, by rw [(List.cons.inj hmarks).1]; rfl⟩
  | whileLoop hmarks => exact ⟨_, _, rfl, by rw [(List.cons.inj hmarks).1]; rfl⟩
  | forLoop hmarks => exact ⟨_, _, rfl, by rw [(List.cons.inj hmarks).1]; rfl⟩
  | _ => cases hs

/-- The first token of parameters is a name. -/
theorem Derives.begins_parameters {tokens : List Token} {trees : List SyntaxTree}
    (h : Symbol.parameters.Derives tokens trees) :
    ∃ first rest, tokens = first :: rest ∧ first.kind = .identifier := by
  cases h with
  | last h =>
    cases h with
    | parameter hmarks => exact ⟨_, _, rfl, (List.cons.inj hmarks).1⟩
  | more _ h _ =>
    cases h with
    | parameter hmarks => exact ⟨_, _, rfl, (List.cons.inj hmarks).1⟩

end Symbol

namespace Parser

variable {state base after : ParserState} {symbol : Symbol} {power : BindingPower}
  {tokens rest : List Token} {trees : List SyntaxTree} {tree : SyntaxTree} {token next : Token}
  {kind : TokenKind} {fuel : Nat}

/-- The fault of a bound on nested calls that is too small. -/
def Exhausts (fault : Fault) : Prop := ∃ message, fault = .internalError message

/-- The token that is consumed is the one that stands in front of the others. -/
theorem consumes_first {found : Token} (hs : state.tokens = token :: rest)
    (hfound : found = state.stream.current) (hc : Consumes state [found] [] [] after) :
    token = found ∧ Consumes state [token] [] [] after ∧ after.tokens = rest := by
  have htoken : token = found := by rw [hfound, current_eq hs]
  rw [← htoken] at hc
  exact ⟨htoken, hc, hc.tokens_eq hs⟩

/-- A token is consumed that stands in front of others. -/
theorem advance_accepts (hl : Lexed state.tokens) (hs : state.tokens = token :: rest)
    (hk : token.kind ≠ .eof) :
    advance.Runs (Pass.Reports Exhausts) state fun found after =>
      token = found ∧ Consumes state [token] [] [] after ∧ after.tokens = rest :=
  (advance_consumes hl (by rw [current_eq hs]; exact hk)).mono fun _ _ h =>
    consumes_first hs h.1 h.2

/-- An expected token is consumed. -/
theorem expect_accepts (hl : Lexed state.tokens) (hs : state.tokens = token :: rest)
    (hk : token.kind = kind) (hne : kind ≠ .eof) :
    (expect kind).Runs (Pass.Reports Exhausts) state fun found after =>
      token = found ∧ Consumes state [token] [] [] after ∧ after.tokens = rest :=
  (expect_consumes hl hne (.inl (by rw [current_eq hs, hk]))).mono fun _ _ h =>
    consumes_first hs h.1 h.2.2

theorem expectBut_accepts {message : String} (hl : Lexed state.tokens)
    (hs : state.tokens = token :: rest) (hk : token.kind = kind) (hne : kind ≠ .eof) :
    (expectBut kind message).Runs (Pass.Reports Exhausts) state fun found after =>
      token = found ∧ Consumes state [token] [] [] after ∧ after.tokens = rest :=
  (expectBut_consumes hl hne (.inl (by rw [current_eq hs, hk]))).mono fun _ _ h =>
    consumes_first hs h.1 h.2.2

/-- A step reads tokens up to the rest, with trees below the nodes it returns. -/
def Accepts {α : Type} (step : Parse α) (ids : α → List NodeId) (state : ParserState)
    (tokens : List Token) (trees : List SyntaxTree) (rest : List Token) : Prop :=
  step.Runs (Pass.Reports Exhausts) state fun value after =>
    Consumes state tokens (ids value) trees after ∧ after.tokens = rest

/-- What is consumed is followed by what stood behind it. -/
theorem Accepts.intro {α : Type} {step : Parse α} {ids : α → List NodeId}
    (hs : state.tokens = tokens ++ rest)
    (h : step.Runs (Pass.Reports Exhausts) state fun value after =>
      Consumes state tokens (ids value) trees after) :
    Accepts step ids state tokens trees rest :=
  h.mono fun _ _ hc => ⟨hc, hc.tokens_eq hs⟩

/-- The functions that read lists: one item, and one or more of them. -/
inductive Lists : Symbol → TokenKind → (Nat → Parse NodeId) → (Nat → Parse (List NodeId)) → Prop
  | parameters : Lists .parameter .comma (fun _ => parameter .pins) (parametersWithin .pins)
  | expressions : Lists .expression .comma (expressionWithin .pins) (expressionsWithin .pins)
  | definitions :
      Lists .definition .semicolon (definitionWithin .pins) (definitionListWithin .pins)

/-- An operation is read where operators count that bind tighter than a power, and reading goes on
behind it, as long as the next token does not belong to the operation. -/
def Operable (level : Precedence) (tokens : List Token) (trees : List SyntaxTree) : Prop :=
  ∀ ⦃fuel : Nat⦄ ⦃power : BindingPower⦄ ⦃state : ParserState⦄ ⦃next : Token⦄ ⦃rest : List Token⦄
    ⦃promised : NodeId → ParserState → Prop⦄, Lexed state.tokens →
    state.tokens = tokens ++ next :: rest → power.rank < level.floor →
    next.kind ≠ .openParen → next.kind.hold ≤ level.ceiling →
    (∀ fuel id after, Consumes state tokens [id] trees after → after.tokens = next :: rest →
      (continuedWithin .pins fuel power id).Runs (Pass.Reports Exhausts) after promised) →
    (operationWithin .pins fuel power).Runs (Pass.Reports Exhausts) state promised

/-- The function for a symbol reads the tokens to the trees, whatever may follow them. -/
def Readable : Symbol → List Token → List SyntaxTree → Prop
  | .type, tokens, trees => ∀ ⦃fuel : Nat⦄ ⦃state : ParserState⦄ ⦃rest : List Token⦄,
    Lexed state.tokens → state.tokens = tokens ++ rest →
    Accepts (typeWithin .pins fuel) ([·]) state tokens trees rest
  | .parameter, tokens, trees => ∀ ⦃state : ParserState⦄ ⦃rest : List Token⦄,
    Lexed state.tokens → state.tokens = tokens ++ rest →
    Accepts (parameter .pins) ([·]) state tokens trees rest
  | .expression, tokens, trees =>
    ∀ ⦃fuel : Nat⦄ ⦃state : ParserState⦄ ⦃next : Token⦄ ⦃rest : List Token⦄,
    Lexed state.tokens → state.tokens = tokens ++ next :: rest → next.kind.closes = true →
    Accepts (expressionWithin .pins fuel) ([·]) state tokens trees (next :: rest)
  | .operation level, tokens, trees => Operable level tokens trees
  | .atom, tokens, trees => ∀ ⦃state : ParserState⦄ ⦃next : Token⦄ ⦃rest : List Token⦄,
    Lexed state.tokens → state.tokens = tokens ++ next :: rest → next.kind ≠ .openParen →
    ∃ form, Grammar.pins.operand? state.stream.current.kind = some form ∧ ∀ fuel,
      Accepts (operandWithin .pins fuel form) ([·]) state tokens trees (next :: rest)
  | .definition, tokens, trees =>
    ∀ ⦃fuel : Nat⦄ ⦃state : ParserState⦄ ⦃next : Token⦄ ⦃rest : List Token⦄,
    Lexed state.tokens → state.tokens = tokens ++ next :: rest → next.kind.closes = true →
    Accepts (definitionWithin .pins fuel) ([·]) state tokens trees (next :: rest)
  | .source, tokens, trees => ∀ ⦃state : ParserState⦄, Lexed state.tokens →
    state.tokens = tokens →
    program.Runs (Pass.Reports Exhausts) state fun root after => after.arena.Holds [root] trees
  | .optional symbol, tokens, trees => (tokens = [] ∧ trees = []) ∨ Readable symbol tokens trees
  | .separated symbol mark, tokens, trees =>
    ∀ ⦃item : Nat → Parse NodeId⦄ ⦃list : Nat → Parse (List NodeId)⦄ ⦃fuel : Nat⦄
      ⦃state : ParserState⦄ ⦃next : Token⦄ ⦃rest : List Token⦄, Lists symbol mark item list →
    Lexed state.tokens → state.tokens = tokens ++ next :: rest → next.kind.closes = true →
    next.kind ≠ mark → Accepts (list fuel) id state tokens trees (next :: rest)

namespace Readable

/-! ### Types and definitions -/

/-- A written type is read in the form that its first token chooses. -/
theorem type_chosen {form : TypeForm} {promised : NodeId → ParserState → Prop}
    (hs : state.tokens = token :: rest) (hform : Grammar.pins.type? token.kind = some form)
    (h : ∀ fuel, Pass.Runs (Pass.Reports Exhausts)
      (match form with
        | .name => typeName
        | .atom => Parser.atomType
        | .array => arrayTypeWithin .pins fuel) state promised) :
    (typeWithin .pins fuel).Runs (Pass.Reports Exhausts) state promised := by
  cases fuel with
  | zero => exact ⟨_, rfl⟩
  | succ fuel =>
    simp only [typeWithin, currentKind, current, Pass.runs_bind, Pass.runs_get, Pass.runs_pure,
      current_eq hs, hform]
    cases form <;> exact h fuel

/-- A definition is read in the form that its first token chooses. -/
theorem definition_chosen {form : DefinitionForm} {promised : NodeId → ParserState → Prop}
    (hs : state.tokens = token :: rest) (hform : Grammar.pins.definition? token.kind = some form)
    (h : ∀ fuel, Pass.Runs (Pass.Reports Exhausts)
      (match form with
        | .type => Parser.typeDefinition .pins
        | .var => Parser.varDefinition .pins
        | .function => functionDefinitionWithin .pins fuel) state promised) :
    (definitionWithin .pins fuel).Runs (Pass.Reports Exhausts) state promised := by
  cases fuel with
  | zero => exact ⟨_, rfl⟩
  | succ fuel =>
    simp only [definitionWithin, currentKind, current, Pass.runs_bind, Pass.runs_get,
      Pass.runs_pure, current_eq hs, hform]
    cases form <;> exact h fuel

theorem namedType {name : Token} (hname : name.kind = .identifier) :
    Readable .type [name] [.node (.namedType name.value) []] := by
  intro fuel state rest hl hs
  have hform : Grammar.pins.type? name.kind = some .name := by rw [hname]; rfl
  refine .intro hs (type_chosen hs hform fun fuel => ?_)
  simp only [typeName, Pass.runs_bind]
  refine (expect_accepts hl hs hname (by decide)).mono fun found s₁ h₁ => ?_
  obtain ⟨rfl, hc, _⟩ := h₁
  exact (add_consumes hc).mono fun id after ha => ha.1

theorem atomType {word : Token} {atom : Atom} (hword : Atom.ofWord? word.kind = some atom) :
    Readable .type [word] [.node (.atomType atom) []] := by
  intro fuel state rest hl hs
  have hform : Grammar.pins.type? word.kind = some .atom ∧ Atom.ofKind word.kind = atom := by
    cases hk : word.kind <;> rw [hk] at hword <;> cases hword <;> exact ⟨rfl, rfl⟩
  have hk : word.kind ≠ .eof := fun he => by simp [he, Atom.ofWord?] at hword
  refine .intro hs (type_chosen hs hform.1 fun fuel => ?_)
  simp only [Parser.atomType, Pass.runs_bind]
  refine (advance_accepts hl hs hk).mono fun found s₁ h₁ => ?_
  obtain ⟨rfl, hc, _⟩ := h₁
  refine (add_consumes hc).mono fun id after ha => ?_
  rw [← hform.2]
  exact ha.1

theorem arrayType {word opened length closed : Token} {element : List Token} {size : Nat}
    (hmarks : [word, opened, length, closed].map Token.kind =
      [.arrWord, .openBracket, .integer, .closeBracket])
    (hsize : Text.digits? length.value.toList = some size) (hfits : size ≤ 4294967295)
    (helement : Readable .type element [tree]) :
    Readable .type (word :: opened :: length :: closed :: element)
      [.node (.arrayType size) [tree]] := by
  intro fuel state rest hl hs
  simp only [List.map_cons, List.map_nil, List.cons.injEq, and_true] at hmarks
  obtain ⟨hword, hopened, hlength, hclosed⟩ := hmarks
  have hform : Grammar.pins.type? word.kind = some .array := by rw [hword]; rfl
  refine .intro hs (type_chosen hs hform fun fuel => ?_)
  cases fuel with
  | zero => exact ⟨_, rfl⟩
  | succ fuel =>
    simp only [arrayTypeWithin, Pass.runs_bind]
    refine (expect_accepts hl hs hword (by decide)).mono fun found s₁ h₁ => ?_
    obtain ⟨rfl, hc₁, hs₁⟩ := h₁
    refine (expectBut_accepts hc₁.lexed hs₁ hopened (by decide)).mono fun found s₂ h₂ => ?_
    obtain ⟨rfl, hc₂, hs₂⟩ := h₂
    refine (expectBut_accepts hc₂.lexed hs₂ hlength (by decide)).mono fun found s₃ h₃ => ?_
    obtain ⟨rfl, hc₃, hs₃⟩ := h₃
    rw [(Text.unsigned?_eq_some_iff hsize).mpr ⟨rfl, hfits⟩]
    simp only [Pass.runs_bind]
    refine (expectBut_accepts hc₃.lexed hs₃ hclosed (by decide)).mono fun found s₄ h₄ => ?_
    obtain ⟨rfl, hc₄, hs₄⟩ := h₄
    refine (helement hc₄.lexed hs₄).mono fun id s₅ h₅ => ?_
    have hread := (((hc₁.marks hc₂).marks hc₃).marks hc₄).trans h₅.1
    exact (addFrom_consumes hread).mono fun id after ha => ha.1

/-- A name, a colon and a written type are read. -/
theorem typedName {what : String} {name colon : Token} {type : List Token}
    (hmarks : [name, colon].map Token.kind = [.identifier, .colon])
    (htype : Readable .type type [tree]) (hl : Lexed state.tokens)
    (hs : state.tokens = name :: colon :: (type ++ rest)) :
    (typedName .pins what).Runs (Pass.Reports Exhausts) state fun typed after =>
      typed.1 = name.value ∧
        Consumes state (name :: colon :: type) [typed.2] [tree] after ∧ after.tokens = rest := by
  simp only [List.map_cons, List.map_nil, List.cons.injEq, and_true] at hmarks
  simp only [Parser.typedName, Pass.runs_bind, Pass.runs_pure]
  refine (expectBut_accepts hl hs hmarks.1 (by decide)).mono fun found s₁ h₁ => ?_
  obtain ⟨rfl, hc₁, hs₁⟩ := h₁
  refine (expectBut_accepts hc₁.lexed hs₁ hmarks.2 (by decide)).mono fun found s₂ h₂ => ?_
  obtain ⟨rfl, hc₂, hs₂⟩ := h₂
  refine Pass.Runs.mono (runs_within fun fuel => htype hc₂.lexed hs₂) fun written s₃ h₃ => ?_
  exact ⟨rfl, (hc₁.marks hc₂).trans h₃.1, h₃.2⟩

theorem parameter {name colon : Token} {type : List Token}
    (hmarks : [name, colon].map Token.kind = [.identifier, .colon])
    (htype : Readable .type type [tree]) :
    Readable .parameter (name :: colon :: type) [.node (.parameter name.value) [tree]] := by
  intro state rest hl hs
  refine .intro hs ?_
  simp only [Parser.parameter, current, Pass.runs_bind, Pass.runs_get, Pass.runs_pure]
  refine (typedName hmarks htype hl hs).mono fun typed s₁ h₁ => ?_
  obtain ⟨hname, hc, _⟩ := h₁
  rw [← hname]
  exact (addFrom_consumes hc).mono fun id after ha => ha.1

/-- The definition of a type or of a variable is read: its word and a typed name. -/
theorem typedDefinition {word name colon : Token} {type : List Token} {first : TokenKind}
    {what : String} {make : String → NodeId → Definition}
    (hmarks : [word, name, colon].map Token.kind = [first, .identifier, .colon])
    (hfirst : first ≠ .eof) (htype : Readable .type type [tree])
    (hchildren : ∀ name written, (make name written).children = [written])
    (hl : Lexed state.tokens) (hs : state.tokens = word :: name :: colon :: (type ++ rest)) :
    (Parser.typedDefinition .pins first what make).Runs (Pass.Reports Exhausts) state
      fun id after => ∃ written, Consumes state (word :: name :: colon :: type) [id]
        [.node (NodeKind.definition (make name.value written)).form [tree]] after := by
  obtain ⟨hword, hnamed⟩ := List.cons.inj hmarks
  simp only [Parser.typedDefinition, Pass.runs_bind]
  refine (expect_accepts hl hs hword hfirst).mono fun found s₁ h₁ => ?_
  obtain ⟨rfl, hc₁, hs₁⟩ := h₁
  refine (typedName hnamed htype hc₁.lexed hs₁).mono fun typed s₂ h₂ => ?_
  obtain ⟨hname, hc₂, _⟩ := h₂
  have hbelow : Consumes state (word :: name :: colon :: type) (make typed.1 typed.2).children
      [tree] s₂ := by
    rw [hchildren]
    exact hc₁.trans hc₂
  rw [← hname]
  exact (addFrom_consumes hbelow).mono fun id after ha => ⟨_, ha.1⟩

theorem typeDefinition {word name colon : Token} {type : List Token}
    (hmarks : [word, name, colon].map Token.kind = [.typWord, .identifier, .colon])
    (htype : Readable .type type [tree]) :
    Readable .definition (word :: name :: colon :: type) [.node (.type name.value) [tree]] := by
  intro fuel state next rest hl hs _
  have hform : Grammar.pins.definition? word.kind = some .type := by
    rw [(List.cons.inj hmarks).1]
    rfl
  refine .intro hs (definition_chosen hs hform fun fuel => ?_)
  rw [typeDefinition_eq]
  refine (typedDefinition hmarks (by decide) htype (fun _ _ => rfl) hl hs).mono
    fun id after h => ?_
  obtain ⟨_, hc⟩ := h
  exact hc

theorem varDefinition {word name colon : Token} {type : List Token}
    (hmarks : [word, name, colon].map Token.kind = [.varWord, .identifier, .colon])
    (htype : Readable .type type [tree]) :
    Readable .definition (word :: name :: colon :: type) [.node (.var name.value) [tree]] := by
  intro fuel state next rest hl hs _
  have hform : Grammar.pins.definition? word.kind = some .var := by
    rw [(List.cons.inj hmarks).1]
    rfl
  refine .intro hs (definition_chosen hs hform fun fuel => ?_)
  rw [varDefinition_eq]
  refine (typedDefinition hmarks (by decide) htype (fun _ _ => rfl) hl hs).mono
    fun id after h => ?_
  obtain ⟨_, hc⟩ := h
  exact hc

/-! ### Lists -/

end Readable

namespace Lists

variable {mark : TokenKind} {item : Nat → Parse NodeId} {list : Nat → Parse (List NodeId)}

/-- A list is an item, and a list again behind a mark. -/
theorem succ_eq (h : Lists symbol mark item list) (fuel : Nat) :
    list (fuel + 1) = separated (item fuel) (list fuel) mark := by
  cases h with
  | parameters => rfl
  | expressions => exact expressionsWithin_succ
  | definitions => exact definitionListWithin_succ

/-- Without calls, no list is read. -/
theorem zero_runs (h : Lists symbol mark item list) {promised : List NodeId → ParserState → Prop} :
    (list 0).Runs (Pass.Reports Exhausts) state promised := by
  cases h <;> exact ⟨_, rfl⟩

/-- The mark between items closes them, and it is no end token. -/
theorem mark_closes (h : Lists symbol mark item list) : mark.closes = true ∧ mark ≠ .eof := by
  cases h <;> decide

/-- An item is read in front of what closes it. -/
theorem item_accepts (h : Lists symbol mark item list) (hr : Readable symbol tokens trees)
    (hl : Lexed state.tokens) (hs : state.tokens = tokens ++ next :: rest)
    (hnext : next.kind.closes = true) :
    Accepts (item fuel) ([·]) state tokens trees (next :: rest) := by
  cases h with
  | parameters => exact hr hl hs
  | expressions => exact hr hl hs hnext
  | definitions => exact hr hl hs hnext

end Lists

namespace Readable

theorem last {mark : TokenKind} (h : Readable symbol tokens trees) :
    Readable (.separated symbol mark) tokens trees := by
  intro item list fuel state next rest hlist hl hs hnext hne
  cases fuel with
  | zero => exact hlist.zero_runs
  | succ fuel =>
    rw [Accepts, hlist.succ_eq]
    simp only [separated, currentKind, current, Pass.runs_bind, Pass.runs_get, Pass.runs_pure]
    refine (hlist.item_accepts h hl hs hnext).mono fun first s₁ h₁ => ?_
    rw [current_eq h₁.2, if_neg hne]
    exact h₁

theorem more {mark : TokenKind} {between : Token} {others : List Token}
    {following : List SyntaxTree} (hbetween : between.kind = mark)
    (h : Readable symbol tokens trees)
    (hothers : Readable (.separated symbol mark) others following) :
    Readable (.separated symbol mark) (tokens ++ between :: others) (trees ++ following) := by
  intro item list fuel state next rest hlist hl hs hnext hne
  refine .intro hs ?_
  rw [List.append_assoc, List.cons_append] at hs
  cases fuel with
  | zero => exact hlist.zero_runs
  | succ fuel =>
    rw [hlist.succ_eq]
    simp only [separated, currentKind, current, Pass.runs_bind, Pass.runs_get, Pass.runs_pure]
    have hmark := hlist.mark_closes
    rw [← hbetween] at hmark
    refine (hlist.item_accepts h hl hs hmark.1).mono fun first s₁ h₁ => ?_
    obtain ⟨hc₁, hs₁⟩ := h₁
    rw [current_eq hs₁, if_pos hbetween]
    simp only [Pass.runs_bind, Pass.runs_pure]
    refine (advance_accepts hc₁.lexed hs₁ hmark.2).mono fun found s₂ h₂ => ?_
    obtain ⟨rfl, hc₂, hs₂⟩ := h₂
    refine (hothers hlist hc₂.lexed hs₂ hnext hne).mono fun ids s₃ h₃ => ?_
    simpa using (hc₁.marks hc₂).trans h₃.1

/-! ### Operations -/

end Readable

/-- In front of a token that does not bind tighter, an operation ends. -/
theorem continued_stops {left : NodeId} {promised : NodeId → ParserState → Prop}
    (hs : state.tokens = next :: rest) (hhold : next.kind.hold ≤ power.rank)
    (h : promised left state) :
    (continuedWithin .pins fuel power left).Runs (Pass.Reports Exhausts) state promised := by
  cases fuel with
  | zero => exact ⟨_, rfl⟩
  | succ fuel =>
    simp only [continuedWithin, currentKind, current, Pass.runs_bind, Pass.runs_get,
      Pass.runs_pure, current_eq hs]
    cases hnext : Grammar.pins.continuation? next.kind with
    | none => exact h
    | some found =>
      rw [TokenKind.hold_of_continuation hnext] at hhold
      simp only [if_pos hhold, Pass.runs_pure]
      exact h

/-- An operation goes on at a token that binds tighter. -/
theorem continued_goes {left : NodeId} {found : Continuation}
    {promised : NodeId → ParserState → Prop}
    (hfound : Grammar.pins.continuation? state.stream.current.kind = some found)
    (hpower : power.rank < found.power.rank)
    (hlonger : ∀ fuel, Pass.Runs (Pass.Reports Exhausts)
      (match found.form with
        | .binary => binaryWithin .pins fuel found.power left
        | .index => indexWithin .pins fuel left)
      state fun id after =>
        (continuedWithin .pins fuel power id).Runs (Pass.Reports Exhausts) after promised) :
    (continuedWithin .pins fuel power left).Runs (Pass.Reports Exhausts) state promised := by
  cases fuel with
  | zero => exact ⟨_, rfl⟩
  | succ fuel =>
    simp only [continuedWithin, currentKind, current, Pass.runs_bind, Pass.runs_get,
      Pass.runs_pure, hfound]
    rw [if_neg (Nat.not_le_of_lt hpower)]
    have h := hlonger fuel
    obtain ⟨form, bound⟩ := found
    cases form <;> exact Pass.runs_bind.mpr h

/-- An operation goes on behind an operand. -/
theorem operation_accepts {form : OperandForm} {promised : NodeId → ParserState → Prop}
    (hform : Grammar.pins.operand? state.stream.current.kind = some form)
    (hoperand : ∀ fuel, Accepts (operandWithin .pins fuel form) ([·]) state tokens trees rest)
    (hgo : ∀ fuel id after, Consumes state tokens [id] trees after → after.tokens = rest →
      (continuedWithin .pins fuel power id).Runs (Pass.Reports Exhausts) after promised) :
    (operationWithin .pins fuel power).Runs (Pass.Reports Exhausts) state promised := by
  cases fuel with
  | zero => exact ⟨_, rfl⟩
  | succ fuel =>
    simp only [operationWithin, currentKind, current, Pass.runs_bind, Pass.runs_get,
      Pass.runs_pure, hform]
    exact (hoperand fuel).mono fun id s₁ h₁ => hgo fuel id s₁ h₁.1 h₁.2

/-- An operation that stands alone in front of a token is read up to it. -/
theorem Operable.accepts {level : Precedence} (h : Operable level tokens trees)
    (hl : Lexed state.tokens) (hs : state.tokens = tokens ++ next :: rest)
    (hpower : power.rank < level.floor) (hparen : next.kind ≠ .openParen)
    (hhold : next.kind.hold ≤ level.ceiling) (hend : next.kind.hold ≤ power.rank) :
    Accepts (operationWithin .pins fuel power) ([·]) state tokens trees (next :: rest) :=
  h hl hs hpower hparen hhold fun _ _ _ hc hs' => continued_stops hs' hend ⟨hc, hs'⟩

/-- The mark of an operator is neither a parenthesis nor the end token. -/
theorem Precedence.mark_ne {level : Precedence} {operator : BinaryOperator}
    (h : level.operator? kind = some operator) : kind ≠ .openParen ∧ kind ≠ .eof := by
  cases level <;> cases kind <;> cases h <;> decide

/-- An operator and its right operand are read behind the left one. -/
theorem continued_binary {level inner : Precedence} {operator : BinaryOperator} {mark : Token}
    {left right : List Token} {leftTree rightTree : SyntaxTree} {operand : NodeId}
    {between : ParserState} {promised : NodeId → ParserState → Prop}
    (hoperator : level.operator? mark.kind = some operator)
    (hpower : power.rank < level.rank) (hinner : level.rank < inner.floor)
    (hceiling : level.ceiling ≤ inner.ceiling)
    (hleft : Consumes state left [operand] [leftTree] between)
    (hs : between.tokens = mark :: (right ++ next :: rest))
    (hright : Operable inner right [rightTree])
    (hparen : next.kind ≠ .openParen) (hhold : next.kind.hold ≤ level.ceiling)
    (hgo : ∀ fuel id after,
      Consumes state (left ++ mark :: right) [id] [.node (.binary operator) [leftTree, rightTree]]
        after → after.tokens = next :: rest →
      (continuedWithin .pins fuel power id).Runs (Pass.Reports Exhausts) after promised) :
    (continuedWithin .pins fuel power operand).Runs (Pass.Reports Exhausts) between promised := by
  obtain ⟨hnext, hkind⟩ := Precedence.continuation_of_operator hoperator
  rw [← current_eq hs] at hnext hkind
  refine continued_goes hnext hpower fun fuel => ?_
  cases fuel with
  | zero => exact ⟨_, rfl⟩
  | succ fuel =>
    simp only [binaryWithin, currentKind, current, Pass.runs_bind, Pass.runs_get,
      Pass.runs_pure, hkind]
    refine (advance_accepts hleft.lexed hs (Precedence.mark_ne hoperator).2).mono
      fun found s₁ h₁ => ?_
    obtain ⟨rfl, hc₁, hs₁⟩ := h₁
    have hend : next.kind.hold ≤ level.power.rank :=
      Nat.le_trans hhold (Precedence.ceiling_le level)
    refine (hright.accepts hc₁.lexed hs₁ hinner hparen (Nat.le_trans hhold hceiling) hend).mono
      fun id s₂ h₂ => ?_
    obtain ⟨hc₂, hs₂⟩ := h₂
    have hchain : ¬(operator.isComparison = true ∧ next.kind.isRelational = true) := by
      rintro ⟨hcomparison, hrelational⟩
      have hlevel := (Precedence.isComparison_iff hoperator).mp hcomparison
      rw [← TokenKind.hold_eq_three_iff] at hrelational
      rw [hlevel, hrelational] at hhold
      exact absurd hhold (by decide)
    rw [current_eq hs₂, if_neg hchain]
    simp only [Pass.runs_bind, spanAt, Pass.runs_get, Pass.runs_pure]
    have hread := (hleft.marks hc₁).trans hc₂
    refine (addFrom_consumes hread).mono fun id s₃ h₃ => ?_
    refine hgo _ id s₃ (by simpa [NodeKind.form] using h₃.1) ?_
    simpa [ParserState.tokens, h₃.2] using hs₂

namespace Readable

theorem tighter {level inner : Precedence} (hinner : level.tighter? = some inner)
    (h : Readable (.operation inner) tokens trees) : Readable (.operation level) tokens trees := by
  intro fuel power state next rest promised hl hs hpower hparen hhold hgo
  have hfloor : level.floor ≤ inner.floor := by
    cases level <;> cases hinner <;> decide
  have hceiling : level.ceiling ≤ inner.ceiling := by
    cases level <;> cases hinner <;> decide
  exact h hl hs (Nat.lt_of_lt_of_le hpower hfloor) hparen (Nat.le_trans hhold hceiling) hgo

theorem chained {level inner : Precedence} {operator : BinaryOperator} {mark : Token}
    {left right : List Token} {leftTree rightTree : SyntaxTree} (hchains : level ≠ .comparison)
    (hmark : level.operator? mark.kind = some operator) (hinner : level.tighter? = some inner)
    (hleft : Readable (.operation level) left [leftTree])
    (hright : Readable (.operation inner) right [rightTree]) :
    Readable (.operation level) (left ++ mark :: right)
      [.node (.binary operator) [leftTree, rightTree]] := by
  intro fuel power state next rest promised hl hs hpower hparen hhold hgo
  rw [List.append_assoc, List.cons_append] at hs
  have hhold' : mark.kind.hold ≤ level.ceiling := by
    rw [TokenKind.hold_of_continuation (Precedence.continuation_of_operator hmark).1,
      Precedence.ceiling_eq hchains]
    exact Nat.le_refl _
  have hlevel : level.floor = level.rank ∧ level.rank < inner.floor ∧
      level.ceiling ≤ inner.ceiling := by
    cases level <;> cases hinner <;> first | decide | cases hmark
  refine hleft hl hs hpower (Precedence.mark_ne hmark).1 hhold' fun fuel id s₁ hc₁ hs₁ => ?_
  rw [hlevel.1] at hpower
  exact continued_binary hmark hpower hlevel.2.1 hlevel.2.2 hc₁ hs₁ hright hparen hhold hgo

theorem comparison {operator : BinaryOperator} {mark : Token} {left right : List Token}
    {leftTree rightTree : SyntaxTree}
    (hmark : Precedence.comparison.operator? mark.kind = some operator)
    (hleft : Readable (.operation .additive) left [leftTree])
    (hright : Readable (.operation .additive) right [rightTree]) :
    Readable (.operation .comparison) (left ++ mark :: right)
      [.node (.binary operator) [leftTree, rightTree]] := by
  intro fuel power state next rest promised hl hs hpower hparen hhold hgo
  rw [List.append_assoc, List.cons_append] at hs
  have hhold' : mark.kind.hold ≤ Precedence.additive.ceiling := by
    rw [TokenKind.hold_of_continuation (Precedence.continuation_of_operator hmark).1]
    decide
  have hpower' : power.rank < Precedence.additive.floor := Nat.lt_trans hpower (by decide)
  refine hleft hl hs hpower' (Precedence.mark_ne hmark).1 hhold' fun fuel id s₁ hc₁ hs₁ => ?_
  exact continued_binary hmark hpower (by decide) (by decide) hc₁ hs₁ hright hparen hhold hgo

theorem prefixed {operator : UnaryOperator} {mark : Token}
    (hmark : UnaryOperator.ofMark? mark.kind = some operator)
    (h : Readable (.operation .prefixed) tokens [tree]) :
    Readable (.operation .prefixed) (mark :: tokens) [.node (.unary operator) [tree]] := by
  intro fuel power state next rest promised hl hs _ hparen hhold hgo
  have hform : Grammar.pins.operand? mark.kind = some .prefixed ∧
      UnaryOperator.ofKind mark.kind = operator ∧ mark.kind ≠ .eof := by
    cases hk : mark.kind <;> rw [hk] at hmark <;> cases hmark <;> exact ⟨rfl, rfl, by decide⟩
  have hcurrent : Grammar.pins.operand? state.stream.current.kind = some .prefixed := by
    rw [current_eq hs]
    exact hform.1
  refine operation_accepts hcurrent (fun fuel => .intro hs ?_) hgo
  rcases fuel with _ | _ | fuel
  · exact ⟨_, rfl⟩
  · exact ⟨_, rfl⟩
  · simp only [operandWithin, prefixedWithin, Pass.runs_bind]
    refine (advance_accepts hl hs hform.2.2).mono fun found s₁ h₁ => ?_
    obtain ⟨rfl, hc₁, hs₁⟩ := h₁
    have hoperand : Accepts (operationWithin .pins fuel .unary) ([·]) s₁ tokens [tree]
        (next :: rest) :=
      Operable.accepts h hc₁.lexed hs₁ (by decide) hparen hhold hhold
    refine hoperand.mono fun id s₂ h₂ => ?_
    refine (addFrom_consumes (hc₁.trans h₂.1)).mono fun id s₃ h₃ => ?_
    rw [← hform.2.1]
    exact h₃.1

theorem operand (h : Readable .atom tokens trees) :
    Readable (.operation .postfixed) tokens trees := by
  intro fuel power state next rest promised hl hs _ hparen _ hgo
  obtain ⟨form, hform, hoperand⟩ := h hl hs hparen
  exact operation_accepts hform hoperand hgo

theorem index {opened closed : Token} {array index : List Token} {arrayTree indexTree : SyntaxTree}
    (hmarks : [opened, closed].map Token.kind = [.openBracket, .closeBracket])
    (harray : Readable (.operation .postfixed) array [arrayTree])
    (hindex : Readable .expression index [indexTree]) :
    Readable (.operation .postfixed) (array ++ opened :: index ++ [closed])
      [.node (.binary .index) [arrayTree, indexTree]] := by
  intro fuel power state next rest promised hl hs hpower hparen hhold hgo
  simp only [List.append_assoc, List.cons_append, List.nil_append] at hs
  simp only [List.map_cons, List.map_nil, List.cons.injEq, and_true] at hmarks
  obtain ⟨hopened, hclosed⟩ := hmarks
  refine harray hl hs hpower (by rw [hopened]; decide) (TokenKind.hold_le _)
    fun fuel id s₁ hc₁ hs₁ => ?_
  have hfound : Grammar.pins.continuation? s₁.stream.current.kind =
      some ⟨.index, .subscript⟩ := by
    rw [current_eq hs₁, hopened]
    rfl
  refine continued_goes hfound hpower fun fuel => ?_
  cases fuel with
  | zero => exact ⟨_, rfl⟩
  | succ fuel =>
    simp only [indexWithin, Pass.runs_bind]
    refine (expect_accepts hc₁.lexed hs₁ hopened (by decide)).mono fun found s₂ h₂ => ?_
    obtain ⟨rfl, hc₂, hs₂⟩ := h₂
    refine (hindex hc₂.lexed hs₂ (by rw [hclosed]; decide)).mono fun below s₃ h₃ => ?_
    obtain ⟨hc₃, hs₃⟩ := h₃
    refine (expectBut_accepts hc₃.lexed hs₃ hclosed (by decide)).mono fun found s₄ h₄ => ?_
    obtain ⟨rfl, hc₄, hs₄⟩ := h₄
    simp only [spanAt, Pass.runs_bind, Pass.runs_get, Pass.runs_pure]
    have hread := ((hc₁.marks hc₂).trans hc₃).marks hc₄
    refine (addFrom_consumes hread).mono fun id s₅ h₅ => ?_
    refine hgo _ id s₅ (by simpa [NodeKind.form] using h₅.1) ?_
    simpa [ParserState.tokens, h₅.2] using hs₄

/-! ### Expressions -/

theorem operation (h : Readable (.operation .or) tokens trees) :
    Readable .expression tokens trees := by
  intro fuel state next rest hl hs hnext
  obtain ⟨hhold, hparen, hcurly⟩ := (TokenKind.closes_iff _).mp hnext
  cases fuel with
  | zero => exact ⟨_, rfl⟩
  | succ fuel =>
    simp only [Accepts, expressionWithin, currentKind, current, peekKind, Pass.runs_bind,
      Pass.runs_get, Pass.runs_pure]
    have hoperation : Accepts (operationWithin .pins fuel .lowest) ([·]) state tokens trees
        (next :: rest) :=
      Operable.accepts h hl hs (by decide) hparen (by rw [hhold]; decide) (by rw [hhold]; decide)
    refine hoperation.mono fun id s₁ h₁ => ?_
    rw [current_eq h₁.2, if_neg (fun hwhere => hcurly hwhere.1)]
    exact h₁

/-- Definitions are read as one node. -/
theorem definitions (h : Readable .definitions tokens trees) (hl : Lexed state.tokens)
    (hs : state.tokens = tokens ++ next :: rest) (hnext : next.kind.closes = true)
    (hne : next.kind ≠ .semicolon) :
    Accepts (definitionsWithin .pins fuel) ([·]) state tokens [.node .definitions trees]
      (next :: rest) := by
  refine .intro hs ?_
  cases fuel with
  | zero => exact ⟨_, rfl⟩
  | succ fuel =>
    simp only [definitionsWithin, current, Pass.runs_bind, Pass.runs_get, Pass.runs_pure]
    refine (h .definitions hl hs hnext hne).mono fun ids s₁ h₁ => ?_
    exact (addFrom_consumes h₁.1).mono fun id after ha => ha.1

theorem whereClause {opened word closed : Token} {operation definitions : List Token}
    {members : List SyntaxTree}
    (hmarks : [opened, word, closed].map Token.kind = [.openCurly, .whereWord, .closeCurly])
    (hoperation : Readable (.operation .or) operation [tree])
    (hdefinitions : Readable .definitions definitions members) :
    Readable .expression (operation ++ opened :: word :: definitions ++ [closed])
      [.node .whereClause [.node .definitions members, tree]] := by
  intro fuel state next rest hl hs _
  refine .intro hs ?_
  simp only [List.append_assoc, List.cons_append, List.nil_append] at hs
  simp only [List.map_cons, List.map_nil, List.cons.injEq, and_true] at hmarks
  obtain ⟨hopened, hword, hclosed⟩ := hmarks
  cases fuel with
  | zero => exact ⟨_, rfl⟩
  | succ fuel =>
    simp only [expressionWithin, currentKind, current, peekKind, Pass.runs_bind, Pass.runs_get,
      Pass.runs_pure]
    have hfirst : Accepts (operationWithin .pins fuel .lowest) ([·]) state operation [tree]
        (opened :: word :: (definitions ++ closed :: next :: rest)) :=
      Operable.accepts hoperation hl hs (by decide) (by rw [hopened]; decide)
        (by rw [hopened]; decide) (by rw [hopened]; decide)
    refine hfirst.mono fun item s₁ h₁ => ?_
    obtain ⟨hc₁, hs₁⟩ := h₁
    rw [current_eq hs₁, peekKind_eq hs₁, if_pos ⟨hopened, hword⟩]
    simp only [Pass.runs_bind, spanAt, Pass.runs_get, Pass.runs_pure]
    refine (advance_accepts hc₁.lexed hs₁ (by rw [hopened]; decide)).mono fun found s₂ h₂ => ?_
    obtain ⟨rfl, hc₂, hs₂⟩ := h₂
    refine (advance_accepts hc₂.lexed hs₂ (by rw [hword]; decide)).mono fun found s₃ h₃ => ?_
    obtain ⟨rfl, hc₃, hs₃⟩ := h₃
    refine (hdefinitions.definitions hc₃.lexed hs₃ (by rw [hclosed]; decide)
      (by rw [hclosed]; decide)).mono fun listed s₄ h₄ => ?_
    obtain ⟨hc₄, hs₄⟩ := h₄
    refine (expectBut_accepts hc₄.lexed hs₄ hclosed (by decide)).mono fun found s₅ h₅ => ?_
    obtain ⟨rfl, hc₅, _⟩ := h₅
    have hread := ((((hc₁.marks hc₂).marks hc₃).trans hc₄).marks hc₅).swap
    refine (addFrom_consumes hread).mono fun id after ha => ?_
    simpa [NodeKind.form] using ha.1

end Readable

end Parser

end Pins
