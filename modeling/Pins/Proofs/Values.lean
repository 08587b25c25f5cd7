import Pins.Proofs.Compiled
import Pins.Proofs.Operands
import Pins.Proofs.WellFormed

/-!
# Values only where values are

The types of a program include one of what yields nothing and those of functions. The rules of
`HasType` hand any type on: a block has that of its last expression, a where clause that of the
expression in front, a name that of what it is bound to. Still, what is kept, handed over or
computed with is a value, made of atoms by array types (`Compilation.ofSource_values`). What names,
calls and type names may be bound to keeps the types of functions out, and the operators keep out
what yields nothing, which is exactly what ends in a choice or a loop.
-/

namespace Pins

/-- The type is made of atoms by array types only. -/
def Ty.isValue : Ty → Bool
  | integer | logical | string => true
  | array _ element => element.isValue
  | void | function .. => false

/-- The type of an atom is that of a value. -/
theorem Ty.isValue_ofAtom (atom : Atom) : (ofAtom atom).isValue = true := by
  cases atom <;> rfl

/-- What can be assigned as a whole is a value. -/
theorem Ty.isValue_of_isAtomic {type : Ty} (h : type.isAtomic = true) : type.isValue = true := by
  cases type <;> first | rfl | cases h

/-- The routines take values to values. -/
theorem Builtin.areValues_of_mem_routines :
    ∀ routine ∈ routines, routine.2.1.all Ty.isValue = true ∧ routine.2.2.isValue = true := by
  decide

/-- The parameters and the result of a routine are values. -/
theorem Builtin.areValues_of_signature? {callee : String} {parameters : List Ty} {result : Ty}
    (h : signature? callee = some (.function parameters result)) :
    parameters.all Ty.isValue = true ∧ result.isValue = true := by
  obtain ⟨_, _, he, hm⟩ := signature?_eq_some h
  obtain ⟨rfl, rfl⟩ := Ty.function.inj he
  exact areValues_of_mem_routines _ hm

/-- The nodes below a node whose values it takes: arguments, operands, indices, both sides of an
assignment, conditions, the counter, the bounds and the step of a loop, the body of a function. -/
def NodeKind.taken : NodeKind → List NodeId
  | definition (.function _ _ _ body) => [body]
  | expression (.call _ arguments) => arguments
  | expression (.binary _ left right) => [left, right]
  | expression (.unary _ operand) => [operand]
  | expression (.conditional condition _ _) | expression (.whileLoop condition _) => [condition]
  | expression (.forLoop counter low high step _) => [counter, low, high, step]
  | _ => []

/-- An expression is a choice or a loop, or a block or a where clause that ends in one. -/
inductive Arena.EndsInControl (arena : Arena) : NodeId → Prop where
  | control {id : NodeId} {item : Expression} (hk : arena.kind? id = some (.expression item))
      (hc : item.isControl = true) : EndsInControl arena id
  | block {id last : NodeId} {expressions : List NodeId}
      (hk : arena.kind? id = some (.expression (.block expressions)))
      (hl : expressions.getLast? = some last) (hlast : EndsInControl arena last) :
      EndsInControl arena id
  | whereClause {id inner body : NodeId}
      (hk : arena.kind? id = some (.expression (.whereClause inner body)))
      (hbody : EndsInControl arena body) : EndsInControl arena id

variable {arena : Arena} {bindings : NodeTable NodeId} {id : NodeId} {type : Ty}

namespace Arena.EndsInControl

/-- What ends in control is an expression. -/
theorem exists_expression (h : arena.EndsInControl id) :
    ∃ item, arena.kind? id = some (.expression item) := by
  cases h <;> exact ⟨_, ‹_›⟩

/-- A block ends in what its last expression ends in. -/
theorem block_iff {last : NodeId} {expressions : List NodeId}
    (hk : arena.kind? id = some (.expression (.block expressions)))
    (hl : expressions.getLast? = some last) :
    arena.EndsInControl id ↔ arena.EndsInControl last := by
  refine ⟨fun h => ?_, .block hk hl⟩
  cases h with
  | control hk' hc => cases hk.symm.trans hk'; cases hc
  | block hk' hl' hlast => cases hk.symm.trans hk'; cases hl.symm.trans hl'; exact hlast
  | whereClause hk' => cases hk.symm.trans hk'

/-- A where clause ends in what the expression in front ends in. -/
theorem where_iff {inner body : NodeId}
    (hk : arena.kind? id = some (.expression (.whereClause inner body))) :
    arena.EndsInControl id ↔ arena.EndsInControl body := by
  refine ⟨fun h => ?_, .whereClause hk⟩
  cases h with
  | control hk' hc => cases hk.symm.trans hk'; cases hc
  | block hk' => cases hk.symm.trans hk'
  | whereClause hk' hbody => cases hk.symm.trans hk'; exact hbody

/-- Any other expression ends in control only if it is a choice or a loop. -/
theorem other_iff {item : Expression} (hk : arena.kind? id = some (.expression item))
    (hb : ∀ expressions, item ≠ .block expressions)
    (hw : ∀ inner body, item ≠ .whereClause inner body) :
    arena.EndsInControl id ↔ item.isControl = true := by
  refine ⟨fun h => ?_, .control hk⟩
  cases h with
  | control hk' hc => cases hk.symm.trans hk'; exact hc
  | block hk' => cases hk.symm.trans hk'; exact absurd rfl (hb _)
  | whereClause hk' => cases hk.symm.trans hk'; exact absurd rfl (hw _ _)

end Arena.EndsInControl

namespace Typing

/-- What type a node may have, by its kind: a function takes values to a value, an expression yields
nothing if it ends in control and a value if not, and the types of all others are those of
values. -/
def TypeRight (arena : Arena) (id : NodeId) (type : Ty) : NodeKind → Prop
  | .definition (.function ..) => ∃ parameters result, type = .function parameters result ∧
      parameters.all Ty.isValue = true ∧ result.isValue = true
  | .expression _ =>
    type.isValue = true ∧ ¬arena.EndsInControl id ∨ type = .void ∧ arena.EndsInControl id
  | .definitions _ | .definition _ | .type _ => type.isValue = true

namespace TypeRight

variable {kind : NodeKind}

/-- An array is a value wherever it is. -/
theorem isValue_of_array {length : Nat} {element : Ty}
    (h : TypeRight arena id (.array length element) kind) : element.isValue = true := by
  cases kind with
  | definition item =>
    cases item with
    | function => obtain ⟨_, _, he, _⟩ := h; cases he
    | var | type | parameter => exact h
  | expression item =>
    rcases h with ⟨hv, _⟩ | ⟨he, _⟩
    · exact hv
    · cases he
  | definitions | type => exact h

/-- A type that is right for some kind of node is that of a value, of what yields nothing, or of a
function. -/
theorem cases_of_kind (h : TypeRight arena id type kind) :
    type.isValue = true ∨ type = .void ∨
      ∃ parameters result, type = .function parameters result := by
  cases kind with
  | definition item =>
    cases item with
    | function => obtain ⟨_, _, he, _⟩ := h; exact .inr (.inr ⟨_, _, he⟩)
    | var | type | parameter => exact .inl h
  | expression item => rcases h with ⟨hv, _⟩ | ⟨he, _⟩; exacts [.inl hv, .inr (.inl he)]
  | definitions | type => exact .inl h

/-- Only what ends in control yields nothing. -/
theorem endsInControl_of_void (h : TypeRight arena id .void kind) : arena.EndsInControl id := by
  cases kind with
  | definition item =>
    cases item with
    | function => obtain ⟨_, _, he, _⟩ := h; cases he
    | var | type | parameter => cases h
  | expression item =>
    rcases h with ⟨hv, _⟩ | ⟨_, hends⟩
    · cases hv
    · exact hends
  | definitions | type => cases h

/-- Only functions have function types, and they take values to a value. -/
theorem of_function {parameters : List Ty} {result : Ty}
    (h : TypeRight arena id (.function parameters result) kind) :
    (∃ definition, kind = .definition definition ∧ definition.kind = .function) ∧
      parameters.all Ty.isValue = true ∧ result.isValue = true := by
  cases kind with
  | definition item =>
    cases item with
    | function => obtain ⟨_, _, he, hv⟩ := h; cases he; exact ⟨⟨_, rfl, rfl⟩, hv⟩
    | var | type | parameter => cases h
  | expression item => rcases h with ⟨h, _⟩ | ⟨h, _⟩ <;> cases h
  | definitions | type => cases h

/-- Of a definition that keeps a value, the type is that of a value. -/
theorem storage_iff {definition : Definition} {written : NodeId}
    (hw : definition.written? = some written) :
    TypeRight arena id type (.definition definition) ↔ type.isValue = true := by
  cases definition <;> first | exact Iff.rfl | cases hw

/-- The type of a definition other than a function is that of a value. -/
theorem isValue_of_kind {definition : Definition}
    (h : TypeRight arena id type (.definition definition)) (hn : definition.kind ≠ .function) :
    type.isValue = true := by
  cases definition with
  | function => exact absurd rfl hn
  | var | type | parameter => exact h

/-- An expression with a value does not end in control. -/
theorem of_isValue {item : Expression} (hk : arena.kind? id = some (.expression item))
    (hb : ∀ expressions, item ≠ .block expressions)
    (hw : ∀ inner body, item ≠ .whereClause inner body) (hc : item.isControl = false)
    (hv : type.isValue = true) : TypeRight arena id type (.expression item) := by
  refine .inl ⟨hv, fun h => ?_⟩
  cases hc.symm.trans ((Arena.EndsInControl.other_iff hk hb hw).mp h)

end TypeRight

/-- The operands of an operation are values, except for the elements of an array. -/
theorem isValue_of_combined? {operator : BinaryOperator} {left right : Ty}
    (h : combined? operator left right = some type)
    (ha : ∀ {length element}, left = .array length element → element.isValue = true) :
    left.isValue = true ∧ right.isValue = true ∧ type.isValue = true := by
  unfold combined? at h
  split at h <;> grind [Ty.isValue, Ty.isValue_of_isAtomic]

/-- The operand of an operation is a value, and so is what it gives. -/
theorem isValue_of_applied? {operator : UnaryOperator} {operand : Ty}
    (h : applied? operator operand = some type) :
    operand.isValue = true ∧ type.isValue = true := by
  obtain ⟨rfl, rfl⟩ := applied?_eq_some_iff.mp h
  cases operator <;> exact ⟨rfl, rfl⟩

/-- A node of a bound program has a type that is right for its kind. -/
theorem HasType.typeRight (h : HasType arena bindings id type) (ht : arena.IsTree)
    (hb : Binding.Bound arena bindings) {kind : NodeKind} (hk : arena.kind? id = some kind) :
    TypeRight arena id type kind := by
  induction h generalizing kind with
  | @atom _ word hk' =>
    cases hk.symm.trans hk'
    exact Ty.isValue_ofAtom word
  | array hk' _ _ ih =>
    cases hk.symm.trans hk'
    obtain ⟨_, helement⟩ := (ht.suits hk' (List.mem_singleton.mpr rfl)).2.exists_type
    exact ih helement
  | typeName hk' hbound _ ih =>
    cases hk.symm.trans hk'
    obtain ⟨target, definition, hfound, hd, hm⟩ := hb.exists_target hk' rfl
    cases hbound.symm.trans hfound
    exact (ih hd).isValue_of_kind (by simp_all)
  | @storage _ written definition _ hk' hw _ ih =>
    cases hk.symm.trans hk'
    have hplace : (Place.type, written) ∈ (NodeKind.definition definition).places := by
      cases definition <;> cases hw <;> exact List.mem_cons_self
    obtain ⟨_, hwritten⟩ := (ht.suits hk' hplace).2.exists_type
    exact (TypeRight.storage_iff hw).mpr (ih hwritten)
  | @function _ result body name parameters _ _ hk' hlength _ _ ihp ihr =>
    cases hk.symm.trans hk'
    have hplace : (Place.type, result) ∈
        (NodeKind.definition (.function name parameters result body)).places := by
      simp [NodeKind.places]
    obtain ⟨_, hresult⟩ := (ht.suits hk' hplace).2.exists_type
    refine ⟨_, _, rfl, List.all_eq_true.mpr fun parameter hm => ?_, ihr hresult⟩
    obtain ⟨entry, hentry⟩ := exists_zip_mem hlength hm
    have hentered : (Place.parameter, entry) ∈
        (NodeKind.definition (.function name parameters result body)).places := by
      simp [NodeKind.places, (List.of_mem_zip hentry).1]
    obtain ⟨_, _, hparameter⟩ := (ht.suits hk' hentered).2.exists_parameter
    exact ihp _ hentry hparameter
  | @literal _ _ word hk' =>
    cases hk.symm.trans hk'
    exact .of_isValue hk' (by simp) (by simp) rfl (Ty.isValue_ofAtom word)
  | name hk' hbound _ ih =>
    cases hk.symm.trans hk'
    obtain ⟨target, definition, hfound, hd, hm⟩ := hb.exists_target hk' rfl
    cases hbound.symm.trans hfound
    exact .of_isValue hk' (by simp) (by simp) rfl
      ((ih hd).isValue_of_kind (by rintro he; simp [he] at hm))
  | routine hk' hs =>
    cases hk.symm.trans hk'
    exact .of_isValue hk' (by simp) (by simp) rfl (Builtin.areValues_of_signature? hs).2
  | call hk' _ _ htarget _ _ iht =>
    cases hk.symm.trans hk'
    obtain ⟨_, hkind, _⟩ := htarget.exists_kind
    exact .of_isValue hk' (by simp) (by simp) rfl (iht hkind).of_function.2.2
  | binary hk' hleft _ hc ihl _ =>
    cases hk.symm.trans hk'
    obtain ⟨_, hkind, _⟩ := hleft.exists_kind
    refine .of_isValue hk' (by simp) (by simp) rfl (isValue_of_combined? hc fun he => ?_).2.2
    exact (he ▸ ihl hkind).isValue_of_array
  | unary hk' _ ha =>
    cases hk.symm.trans hk'
    exact .of_isValue hk' (by simp) (by simp) rfl (isValue_of_applied? ha).2
  | @block _ last expressions _ hk' hl _ ih =>
    cases hk.symm.trans hk'
    have hplace : (Place.expression, last) ∈
        (NodeKind.expression (.block expressions)).places :=
      List.mem_map_of_mem (List.mem_of_getLast? hl)
    obtain ⟨_, hlast⟩ := (ht.suits hk' hplace).2.exists_expression (.inl rfl)
    simpa only [TypeRight, Arena.EndsInControl.block_iff hk' hl] using ih hlast
  | conditional hk' | whileLoop hk' | forLoop hk' =>
    cases hk.symm.trans hk'
    exact .inr ⟨rfl, .control hk' rfl⟩
  | @whereClause _ inner body _ hk' _ ih =>
    cases hk.symm.trans hk'
    have hplace : (Place.expression, body) ∈
        (NodeKind.expression (.whereClause inner body)).places := List.mem_cons_self
    obtain ⟨_, hbody⟩ := (ht.suits hk' hplace).2.exists_expression (.inl rfl)
    simpa only [TypeRight, Arena.EndsInControl.where_iff hk'] using ih hbody

/-- What a node takes is a value. -/
theorem exists_isValue_of_taken (ht : arena.IsTree) (hb : Binding.Bound arena bindings)
    (hw : WellTyped arena bindings) {kind : NodeKind} {below : NodeId}
    (hk : arena.kind? id = some kind) (hm : below ∈ kind.taken) :
    ∃ type, HasType arena bindings below type ∧ type.isValue = true := by
  cases kind with
  | definitions | type => cases hm
  | definition item =>
    cases item with
    | var | type | parameter => cases hm
    | function name parameters result body =>
      obtain rfl := List.mem_singleton.mp hm
      obtain ⟨type, hresult, hbody⟩ := hw.body hk
      have hplace : (Place.type, result) ∈
          (NodeKind.definition (.function name parameters result below)).places := by
        simp [NodeKind.places]
      obtain ⟨_, hwritten⟩ := (ht.suits hk hplace).2.exists_type
      exact ⟨type, hbody, hresult.typeRight ht hb hwritten⟩
  | expression item =>
    obtain ⟨type, htype⟩ := hw.total hk rfl
    have hd := htype.derives hk
    cases item with
    | call callee arguments =>
      obtain ⟨types, hs, hlength, harguments⟩ := hd
      have hvalues : types.all Ty.isValue = true := by
        rcases hs with hs | ⟨_, target, _, htarget⟩
        · exact (Builtin.areValues_of_signature? hs).1
        · obtain ⟨_, hkind, _⟩ := htarget.exists_kind
          exact (htarget.typeRight ht hb hkind).of_function.2.1
      obtain ⟨parameter, hentry⟩ := exists_mem_zip hlength hm
      exact ⟨parameter, harguments _ hentry,
        List.all_eq_true.mp hvalues _ (List.of_mem_zip hentry).2⟩
    | binary operator left right =>
      obtain ⟨leftType, rightType, hleft, hright, hc⟩ := hd
      obtain ⟨_, hkind, _⟩ := hleft.exists_kind
      obtain ⟨hl, hr, _⟩ := isValue_of_combined? hc fun he =>
        (he ▸ hleft.typeRight ht hb hkind).isValue_of_array
      rcases List.mem_pair.mp hm with rfl | rfl
      · exact ⟨leftType, hleft, hl⟩
      · exact ⟨rightType, hright, hr⟩
    | unary operator operand =>
      obtain rfl := List.mem_singleton.mp hm
      obtain ⟨operandType, hoperand, ha⟩ := hd
      exact ⟨operandType, hoperand, (isValue_of_applied? ha).1⟩
    | conditional condition | whileLoop condition =>
      obtain rfl := List.mem_singleton.mp hm
      exact ⟨.logical, hd.1, rfl⟩
    | forLoop counter low high step body =>
      obtain ⟨hcounter, hlow, hhigh, hstep, _⟩ := hd
      simp only [NodeKind.taken, List.mem_cons, List.not_mem_nil, or_false] at hm
      rcases hm with rfl | rfl | rfl | rfl
      exacts [⟨_, hcounter, rfl⟩, ⟨_, hlow, rfl⟩, ⟨_, hhigh, rfl⟩, ⟨_, hstep, rfl⟩]
    | block | name | literal | whereClause => cases hm

/-- Exactly what ends in control yields nothing. -/
theorem hasType_void_iff (ht : arena.IsTree) (hb : Binding.Bound arena bindings)
    (hw : WellTyped arena bindings) :
    HasType arena bindings id .void ↔ arena.EndsInControl id := by
  constructor
  · intro h
    obtain ⟨_, hk, _⟩ := h.exists_kind
    exact (h.typeRight ht hb hk).endsInControl_of_void
  · intro h
    obtain ⟨item, hk⟩ := h.exists_expression
    obtain ⟨type, htype⟩ := hw.total hk rfl
    rcases htype.typeRight ht hb hk with ⟨_, hn⟩ | ⟨rfl, _⟩
    · exact absurd h hn
    · exact htype

end Typing

namespace Compilation

/-- In a source that compiles, variables, parameters and type definitions have the types of values,
and so has whatever is taken as a value: arguments, operands, indices, the sides of assignments,
conditions, counters, bounds and steps, and the bodies of functions. Exactly the expressions that
end in a choice or a loop yield nothing, and a function type, which takes values to a value, is that
of a function. There are no other types. -/
theorem ofSource_values {file source : String} {compilation : Compilation}
    (h : ofSource file source = .ok compilation) :
    (∀ id definition, compilation.program.arena.definition? id = some definition →
      definition.kind ≠ .function →
        ∃ type, compilation.program.types.get? id = some type ∧ type.isValue = true) ∧
    (∀ id kind below, compilation.program.arena.kind? id = some kind → below ∈ kind.taken →
      ∃ type, compilation.program.types.get? below = some type ∧ type.isValue = true) ∧
    (∀ id, compilation.program.types.get? id = some .void ↔
      compilation.program.arena.EndsInControl id) ∧
    (∀ id parameters result,
      compilation.program.types.get? id = some (.function parameters result) →
        (∃ definition, compilation.program.arena.definition? id = some definition ∧
          definition.kind = .function) ∧
        (∀ parameter ∈ parameters, parameter.isValue = true) ∧ result.isValue = true) ∧
    ∀ id type, compilation.program.types.get? id = some type →
      type.isValue = true ∨ type = .void ∨
        ∃ parameters result, type = .function parameters result := by
  obtain ⟨_, _, _, _, hc⟩ := ofSource_compiled h
  have ht := hc.prepared.tree
  have hb := hc.prepared.bound
  have hw := hc.prepared.typed.wellTyped
  simp only [hc.prepared.typed.get?_eq_some_iff]
  refine ⟨fun id definition hd hn => ?_,
    fun id kind below => Typing.exists_isValue_of_taken ht hb hw,
    fun id => Typing.hasType_void_iff ht hb hw, fun id parameters result htype => ?_,
    fun id type htype => ?_⟩
  · have hk := Arena.kind?_of_definition? hd
    obtain ⟨type, htype⟩ := hw.total hk rfl
    exact ⟨type, htype, (htype.typeRight ht hb hk).isValue_of_kind hn⟩
  · obtain ⟨_, hk, _⟩ := htype.exists_kind
    obtain ⟨⟨definition, rfl, hkind⟩, hparameters, hresult⟩ :=
      (htype.typeRight ht hb hk).of_function
    exact ⟨⟨definition, by simp [Arena.definition?, hk], hkind⟩, List.all_eq_true.mp hparameters,
      hresult⟩
  · obtain ⟨_, hk, _⟩ := htype.exists_kind
    exact (htype.typeRight ht hb hk).cases_of_kind

/-- A where clause that ends in a loop yields nothing, and the array that is indexed behind it is a
value. -/
theorem ofSource_values_of_loop : ∃ compilation, ofSource "test"
    "fun f(m: arr[3] string): string = (\x7bwhile true: 0\x7d \x7bwhere var n: string\x7d, m[1])" =
      .ok compilation ∧
    compilation.program.arena.EndsInControl ⟨10⟩ ∧
    ∃ type, compilation.program.types.get? ⟨11⟩ = some type ∧ type.isValue = true := by
  obtain ⟨compilation, h, hvoid, hk⟩ : ∃ compilation, ofSource "test"
    "fun f(m: arr[3] string): string = (\x7bwhile true: 0\x7d \x7bwhere var n: string\x7d, m[1])" =
      .ok compilation ∧ compilation.program.types.get? ⟨10⟩ = some .void ∧
      compilation.program.arena.kind? ⟨13⟩ = some (.expression (.binary .index ⟨11⟩ ⟨12⟩)) :=
    exists_of_any (by decide +kernel)
  obtain ⟨_, htaken, hends, _⟩ := ofSource_values h
  exact ⟨compilation, h, (hends ⟨10⟩).mp hvoid, htaken ⟨13⟩ _ ⟨11⟩ hk (by simp [NodeKind.taken])⟩

end Compilation

end Pins
