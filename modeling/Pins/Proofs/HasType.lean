import Pins.Proofs.Bound
import Pins.Typing

/-!
# The type of a node

`HasType` says which type a node of a bound program has, by one rule for each form of node and
without any order in which types are found. A node has at most one type (`HasType.unique`). Its
array types can be measured, and so can the result of its function type (`HasType.isMeasured`).

A program is `WellTyped` if all its nodes but definition lists have types and the body of every
function has the type of its result. The body cannot be a premise of the type of its function, as
the function may call itself; a definition whose type comes from itself has no type
(`HasType.acc`).
-/

namespace Pins

namespace Ty

/-- Every array type in a type takes a number of bytes that can be addressed, those of the
parameters of a function left aside. -/
def isMeasured : Ty → Bool
  | array length element => (array length element).size?.isSome && element.isMeasured
  | function _ result => result.isMeasured
  | _ => true

/-- A measured type has a size. -/
theorem isSome_size?_of_isMeasured {type : Ty} (h : type.isMeasured = true) :
    type.size?.isSome = true := by
  cases type with
  | array length element =>
    simp only [isMeasured, Bool.and_eq_true] at h
    exact h.1
  | integer | logical | string | void | function => rfl

/-- The bytes a value takes in memory, however many these are. -/
def bytes : Ty → Nat
  | integer | logical | string => wordSize
  | void | function .. => 0
  | array length element => length * element.bytes

/-- The size of a measured type is exact. -/
theorem size?_of_isMeasured : (type : Ty) → type.isMeasured = true → type.size? = some type.bytes
  | integer, _ | logical, _ | string, _ | void, _ | function .., _ => rfl
  | array length element, h => by
    simp only [isMeasured, Bool.and_eq_true] at h
    obtain ⟨hsize, helement⟩ := h
    have hinner := size?_of_isMeasured element helement
    simp only [size?, hinner, Option.bind_eq_bind, Option.bind_some, bytes] at hsize ⊢
    split at hsize
    · next hle => rw [if_pos hle]
    · cases hsize

/-- An array of a measured type has a size exactly if its bytes can be addressed. -/
theorem isSome_size?_array_iff {length : Nat} {element : Ty} (h : element.isMeasured = true) :
    (array length element).size?.isSome = true ↔ (array length element).bytes ≤ maxObjectSize := by
  simp only [size?, size?_of_isMeasured element h, Option.bind_eq_bind, Option.bind_some, bytes]
  split
  · next hle => simp [hle]
  · next hgt => simp [hgt]

/-- The type of an atom is measured. -/
theorem isMeasured_ofAtom (atom : Atom) : (ofAtom atom).isMeasured = true := by
  cases atom <;> rfl

end Ty

namespace Builtin

/-- The result of every routine is measured. -/
theorem isMeasured_of_mem_routines :
    ∀ routine ∈ routines, routine.2.2.isMeasured = true := by decide

/-- A routine has a function type, the one that is listed for its name. -/
theorem signature?_eq_some {callee : String} {type : Ty} (h : signature? callee = some type) :
    ∃ parameters result, type = .function parameters result ∧
      (callee, parameters, result) ∈ routines := by
  simp only [signature?, Option.map_eq_some_iff] at h
  obtain ⟨⟨parameters, result⟩, hl, rfl⟩ := h
  obtain ⟨before, behind, he, _⟩ := List.lookup_eq_some_iff.mp hl
  exact ⟨parameters, result, rfl, by simp [he]⟩

/-- A name has a signature exactly if it is that of a routine. -/
theorem isSome_signature? (callee : String) : (signature? callee).isSome = isRoutine callee := by
  simp [signature?, isRoutine]

end Builtin

/-- The written type of a definition that keeps a value. -/
def Definition.written? : Definition → Option NodeId
  | function .. => none
  | var _ written => some written
  | type _ written => some written
  | parameter _ written => some written

namespace NodeKind

/-- A node that gets a type: any but a definition list. -/
def isTyped : NodeKind → Bool
  | definitions _ => false
  | _ => true

/-- The nodes below a node whose types are looked up for its own. -/
def sources : NodeKind → List NodeId
  | definition (.function _ parameters result _) => parameters ++ [result]
  | definition (.var _ written) => [written]
  | definition (.type _ written) => [written]
  | definition (.parameter _ written) => [written]
  | type item => item.children
  | _ => []

theorem sources_of_written? {item : Definition} {written : NodeId}
    (h : item.written? = some written) : (definition item).sources = [written] := by
  cases item <;> cases h <;> rfl

end NodeKind

namespace Typing

/-- The type of an operation on operands of two types, if it takes them. -/
def combined? : BinaryOperator → Ty → Ty → Option Ty
  | .or, .logical, .logical | .and, .logical, .logical => some .logical
  | .add, .integer, .integer | .sub, .integer, .integer | .mul, .integer, .integer
  | .div, .integer, .integer | .mod, .integer, .integer => some .integer
  | .index, .array _ element, .integer => some element
  | .assign, left, right => if left = right ∧ left.isAtomic then some left else none
  | .eq, left, right | .neq, left, right | .lt, left, right | .gt, left, right
  | .leq, left, right | .geq, left, right =>
    if left = right ∧ (left = .integer ∨ left = .logical) then some .logical else none
  | _, _, _ => none

/-- The type of an operation on one operand, if it takes an operand of the type. -/
def applied? : UnaryOperator → Ty → Option Ty
  | .plus, .integer | .minus, .integer => some .integer
  | .not, .logical => some .logical
  | _, _ => none

/-- The type of a node under the bindings of a program. -/
inductive HasType (arena : Arena) (bindings : NodeTable NodeId) : NodeId → Ty → Prop where
  | atom {id : NodeId} {word : Atom} (hk : arena.kind? id = some (.type (.atom word))) :
      HasType arena bindings id (.ofAtom word)
  | array {id element : NodeId} {length : Nat} {type : Ty}
      (hk : arena.kind? id = some (.type (.array length element)))
      (helement : HasType arena bindings element type)
      (hsize : (Ty.array length type).bytes ≤ maxObjectSize) :
      HasType arena bindings id (.array length type)
  | typeName {id target : NodeId} {word : String} {type : Ty}
      (hk : arena.kind? id = some (.type (.name word))) (hb : bindings.get? id = some target)
      (htarget : HasType arena bindings target type) : HasType arena bindings id type
  | storage {id written : NodeId} {definition : Definition} {type : Ty}
      (hk : arena.kind? id = some (.definition definition))
      (hw : definition.written? = some written) (hwritten : HasType arena bindings written type) :
      HasType arena bindings id type
  | function {id result body : NodeId} {name : String} {parameters : List NodeId}
      {types : List Ty} {type : Ty}
      (hk : arena.kind? id = some (.definition (.function name parameters result body)))
      (hlength : parameters.length = types.length)
      (hparameters : ∀ entry ∈ parameters.zip types, HasType arena bindings entry.1 entry.2)
      (hresult : HasType arena bindings result type) :
      HasType arena bindings id (.function types type)
  | literal {id : NodeId} {value : String} {word : Atom}
      (hk : arena.kind? id = some (.expression (.literal value word))) :
      HasType arena bindings id (.ofAtom word)
  | name {id target : NodeId} {word : String} {type : Ty}
      (hk : arena.kind? id = some (.expression (.name word)))
      (hb : bindings.get? id = some target) (htarget : HasType arena bindings target type) :
      HasType arena bindings id type
  | routine {id : NodeId} {callee : String} {arguments : List NodeId} {types : List Ty} {type : Ty}
      (hk : arena.kind? id = some (.expression (.call callee arguments)))
      (hs : Builtin.signature? callee = some (.function types type))
      (hlength : arguments.length = types.length)
      (harguments : ∀ entry ∈ arguments.zip types, HasType arena bindings entry.1 entry.2) :
      HasType arena bindings id type
  | call {id target : NodeId} {callee : String} {arguments : List NodeId} {types : List Ty}
      {type : Ty} (hk : arena.kind? id = some (.expression (.call callee arguments)))
      (hs : Builtin.signature? callee = none) (hb : bindings.get? id = some target)
      (htarget : HasType arena bindings target (.function types type))
      (hlength : arguments.length = types.length)
      (harguments : ∀ entry ∈ arguments.zip types, HasType arena bindings entry.1 entry.2) :
      HasType arena bindings id type
  | binary {id left right : NodeId} {operator : BinaryOperator} {leftType rightType type : Ty}
      (hk : arena.kind? id = some (.expression (.binary operator left right)))
      (hleft : HasType arena bindings left leftType)
      (hright : HasType arena bindings right rightType)
      (hc : combined? operator leftType rightType = some type) : HasType arena bindings id type
  | unary {id operand : NodeId} {operator : UnaryOperator} {operandType type : Ty}
      (hk : arena.kind? id = some (.expression (.unary operator operand)))
      (hoperand : HasType arena bindings operand operandType)
      (ha : applied? operator operandType = some type) : HasType arena bindings id type
  | block {id last : NodeId} {expressions : List NodeId} {type : Ty}
      (hk : arena.kind? id = some (.expression (.block expressions)))
      (hl : expressions.getLast? = some last) (hlast : HasType arena bindings last type) :
      HasType arena bindings id type
  | conditional {id condition thenBranch : NodeId} {elseBranch : Option NodeId}
      (hk : arena.kind? id = some (.expression (.conditional condition thenBranch elseBranch)))
      (hcondition : HasType arena bindings condition .logical) : HasType arena bindings id .void
  | whileLoop {id condition body : NodeId}
      (hk : arena.kind? id = some (.expression (.whileLoop condition body)))
      (hcondition : HasType arena bindings condition .logical) : HasType arena bindings id .void
  | forLoop {id counter low high step body : NodeId}
      (hk : arena.kind? id = some (.expression (.forLoop counter low high step body)))
      (hcounter : HasType arena bindings counter .integer)
      (hlow : HasType arena bindings low .integer) (hhigh : HasType arena bindings high .integer)
      (hstep : HasType arena bindings step .integer) : HasType arena bindings id .void
  | whereClause {id inner body : NodeId} {type : Ty}
      (hk : arena.kind? id = some (.expression (.whereClause inner body)))
      (hbody : HasType arena bindings body type) : HasType arena bindings id type

variable {arena : Arena} {bindings : NodeTable NodeId} {id : NodeId} {type : Ty}

/-- An operator in front of an operand takes the one type that it gives. -/
theorem applied?_eq_some_iff {operator : UnaryOperator} {operand : Ty} :
    applied? operator operand = some type ↔
      operand = unaryType operator ∧ type = unaryType operator := by
  cases operator <;> cases operand <;> simp [applied?, unaryType, eq_comm]

/-- An operation yields a truth value, a number, an element of an array or what is assigned. -/
theorem combined?_cases {operator : BinaryOperator} {left right : Ty}
    (h : combined? operator left right = some type) :
    type = .logical ∨ type = .integer ∨ (∃ length, left = .array length type) ∨ type = left := by
  unfold combined? at h
  split at h <;> grind

/-- An operation on measured types yields a measured type. -/
theorem isMeasured_of_combined? {operator : BinaryOperator} {left right : Ty}
    (h : combined? operator left right = some type) (hl : left.isMeasured = true) :
    type.isMeasured = true := by
  rcases combined?_cases h with rfl | rfl | ⟨length, rfl⟩ | rfl
  · rfl
  · rfl
  · simp only [Ty.isMeasured, Bool.and_eq_true] at hl
    exact hl.2
  · exact hl

/-- Lists of as many types that agree at every place are one list. -/
theorem eq_of_zip {members : List NodeId} {first second : List Ty}
    (hf : members.length = first.length) (hs : members.length = second.length)
    (hu : ∀ entry ∈ members.zip first, ∀ other, (entry.1, other) ∈ members.zip second →
      entry.2 = other) : first = second := by
  refine List.ext_getElem (hf.symm.trans hs) fun index h₁ h₂ => ?_
  have hm : index < members.length := by omega
  have hfirst : (members[index], first[index]) ∈ members.zip first :=
    List.mem_iff_getElem.mpr ⟨index, by simp; omega, by simp⟩
  have hsecond : (members[index], second[index]) ∈ members.zip second :=
    List.mem_iff_getElem.mpr ⟨index, by simp; omega, by simp⟩
  exact hu _ hfirst _ hsecond

/-- Every member of a list stands beside a member of a list of the same length. -/
theorem exists_mem_zip {member : NodeId} {members : List NodeId} {types : List Ty}
    (hlength : members.length = types.length) (hm : member ∈ members) :
    ∃ type, (member, type) ∈ members.zip types := by
  obtain ⟨index, hi, rfl⟩ := List.mem_iff_getElem.mp hm
  exact ⟨types[index], List.mem_iff_getElem.mpr ⟨index, by simp; omega, by simp⟩⟩

/-- Every type of a list stands beside a member of a list of the same length. -/
theorem exists_zip_mem {members : List NodeId} {types : List Ty}
    (hlength : members.length = types.length) (hm : type ∈ types) :
    ∃ member, (member, type) ∈ members.zip types := by
  obtain ⟨index, hi, rfl⟩ := List.mem_iff_getElem.mp hm
  exact ⟨members[index], List.mem_iff_getElem.mpr ⟨index, by simp; omega, by simp⟩⟩

/-- What the one rule for a kind of node asks of the nodes below, by the relation `typed`. -/
def Derives (bindings : NodeTable NodeId) (typed : NodeId → Ty → Prop) (id : NodeId) :
    NodeKind → Ty → Prop
  | .definitions _, _ => False
  | .type (.atom word), type => type = .ofAtom word
  | .type (.array length element), type =>
    ∃ inner, typed element inner ∧ (Ty.array length inner).bytes ≤ maxObjectSize ∧
      type = .array length inner
  | .type (.name _), type => ∃ target, bindings.get? id = some target ∧ typed target type
  | .definition (.function _ parameters result _), type =>
    ∃ types yielded, parameters.length = types.length ∧
      (∀ entry ∈ parameters.zip types, typed entry.1 entry.2) ∧ typed result yielded ∧
      type = .function types yielded
  | .definition (.var _ written), type | .definition (.type _ written), type
  | .definition (.parameter _ written), type => typed written type
  | .expression (.literal _ word), type => type = .ofAtom word
  | .expression (.name _), type => ∃ target, bindings.get? id = some target ∧ typed target type
  | .expression (.call callee arguments), type =>
    ∃ types, (Builtin.signature? callee = some (.function types type) ∨
        Builtin.signature? callee = none ∧ ∃ target, bindings.get? id = some target ∧
          typed target (.function types type)) ∧
      arguments.length = types.length ∧ ∀ entry ∈ arguments.zip types, typed entry.1 entry.2
  | .expression (.binary operator left right), type =>
    ∃ leftType rightType, typed left leftType ∧ typed right rightType ∧
      combined? operator leftType rightType = some type
  | .expression (.unary operator operand), type =>
    ∃ operandType, typed operand operandType ∧ applied? operator operandType = some type
  | .expression (.block expressions), type =>
    ∃ last, expressions.getLast? = some last ∧ typed last type
  | .expression (.conditional condition _ _), type | .expression (.whileLoop condition _), type =>
    typed condition .logical ∧ type = .void
  | .expression (.forLoop counter low high step _), type =>
    typed counter .integer ∧ typed low .integer ∧ typed high .integer ∧ typed step .integer ∧
      type = .void
  | .expression (.whereClause _ body), type => typed body type

namespace HasType

/-- A type is derived by the rule for the kind of its node. -/
theorem derives {kind : NodeKind} (h : HasType arena bindings id type)
    (hk : arena.kind? id = some kind) :
    Derives bindings (HasType arena bindings) id kind type := by
  cases h with
  | atom hk' => cases hk.symm.trans hk'; rfl
  | array hk' helement hsize => cases hk.symm.trans hk'; exact ⟨_, helement, hsize, rfl⟩
  | typeName hk' hb htarget => cases hk.symm.trans hk'; exact ⟨_, hb, htarget⟩
  | @storage _ _ definition _ hk' hw hwritten =>
    cases hk.symm.trans hk'
    cases definition <;> cases hw <;> exact hwritten
  | function hk' hlength hparameters hresult =>
    cases hk.symm.trans hk'
    exact ⟨_, _, hlength, hparameters, hresult, rfl⟩
  | literal hk' => cases hk.symm.trans hk'; rfl
  | name hk' hb htarget => cases hk.symm.trans hk'; exact ⟨_, hb, htarget⟩
  | routine hk' hs hlength harguments =>
    cases hk.symm.trans hk'
    exact ⟨_, .inl hs, hlength, harguments⟩
  | call hk' hs hb htarget hlength harguments =>
    cases hk.symm.trans hk'
    exact ⟨_, .inr ⟨hs, _, hb, htarget⟩, hlength, harguments⟩
  | binary hk' hleft hright hc => cases hk.symm.trans hk'; exact ⟨_, _, hleft, hright, hc⟩
  | unary hk' hoperand ha => cases hk.symm.trans hk'; exact ⟨_, hoperand, ha⟩
  | block hk' hl hlast => cases hk.symm.trans hk'; exact ⟨_, hl, hlast⟩
  | conditional hk' hcondition => cases hk.symm.trans hk'; exact ⟨hcondition, rfl⟩
  | whileLoop hk' hcondition => cases hk.symm.trans hk'; exact ⟨hcondition, rfl⟩
  | forLoop hk' hcounter hlow hhigh hstep =>
    cases hk.symm.trans hk'
    exact ⟨hcounter, hlow, hhigh, hstep, rfl⟩
  | whereClause hk' hbody => cases hk.symm.trans hk'; exact hbody

/-- The type of a definition that keeps a value is the written one. -/
theorem of_storage {written : NodeId} {definition : Definition}
    (h : HasType arena bindings id type) (hk : arena.kind? id = some (.definition definition))
    (hw : definition.written? = some written) : HasType arena bindings written type := by
  have hd := h.derives hk
  cases definition <;> cases hw <;> exact hd

/-- A node has at most one type. -/
theorem unique {other : Ty} (h : HasType arena bindings id type)
    (ho : HasType arena bindings id other) : type = other := by
  induction h generalizing other with
  | atom hk => exact (ho.derives hk).symm
  | array hk _ _ ih =>
    obtain ⟨inner, hinner, _, rfl⟩ := ho.derives hk
    rw [ih hinner]
  | typeName hk hb _ ih =>
    obtain ⟨target, hb', htarget⟩ := ho.derives hk
    cases hb.symm.trans hb'
    exact ih htarget
  | storage hk hw _ ih => exact ih (ho.of_storage hk hw)
  | function hk hlength _ _ ihp ihr =>
    obtain ⟨types, yielded, hlength', hparameters, hresult, rfl⟩ := ho.derives hk
    rw [ihr hresult, eq_of_zip hlength hlength' fun entry hm other ho =>
      ihp entry hm (hparameters _ ho)]
  | literal hk => exact (ho.derives hk).symm
  | name hk hb _ ih =>
    obtain ⟨target, hb', htarget⟩ := ho.derives hk
    cases hb.symm.trans hb'
    exact ih htarget
  | routine hk hs _ _ _ =>
    obtain ⟨types, hs' | ⟨hs', _⟩, _⟩ := ho.derives hk
    · cases hs.symm.trans hs'
      rfl
    · cases hs.symm.trans hs'
  | call hk hs hb _ _ _ iht _ =>
    obtain ⟨types, hs' | ⟨_, target, hb', htarget⟩, _⟩ := ho.derives hk
    · cases hs.symm.trans hs'
    · cases hb.symm.trans hb'
      cases iht htarget
      rfl
  | binary hk _ _ hc ihl ihr =>
    obtain ⟨leftType, rightType, hleft, hright, hc'⟩ := ho.derives hk
    rw [ihl hleft, ihr hright] at hc
    exact Option.some.inj (hc.symm.trans hc')
  | unary hk _ ha ih =>
    obtain ⟨operandType, hoperand, ha'⟩ := ho.derives hk
    rw [ih hoperand] at ha
    exact Option.some.inj (ha.symm.trans ha')
  | block hk hl _ ih =>
    obtain ⟨last, hl', hlast⟩ := ho.derives hk
    cases hl.symm.trans hl'
    exact ih hlast
  | conditional hk _ _ => exact (ho.derives hk).2.symm
  | whileLoop hk _ _ => exact (ho.derives hk).2.symm
  | forLoop hk _ _ _ _ _ _ _ _ => exact (ho.derives hk).2.2.2.2.symm
  | whereClause hk _ ih => exact ih (ho.derives hk)

/-- What has a type is a node that gets one. -/
theorem exists_kind (h : HasType arena bindings id type) :
    ∃ kind, arena.kind? id = some kind ∧ kind.isTyped = true := by
  cases h <;> exact ⟨_, ‹_›, rfl⟩

/-- The array types in the type of a node can be measured. -/
theorem isMeasured (h : HasType arena bindings id type) : type.isMeasured = true := by
  induction h with
  | @atom _ word _ => exact Ty.isMeasured_ofAtom word
  | array _ _ hsize ih =>
    simp [Ty.isMeasured, (Ty.isSome_size?_array_iff ih).mpr hsize, ih]
  | typeName _ _ _ ih => exact ih
  | storage _ _ _ ih => exact ih
  | function _ _ _ _ _ ih => exact ih
  | @literal _ _ word _ => exact Ty.isMeasured_ofAtom word
  | name _ _ _ ih => exact ih
  | routine _ hs _ _ _ =>
    obtain ⟨parameters, result, he, hm⟩ := Builtin.signature?_eq_some hs
    cases he
    exact Builtin.isMeasured_of_mem_routines _ hm
  | call _ _ _ _ _ _ ih _ => exact ih
  | binary _ _ _ hc ihl _ => exact isMeasured_of_combined? hc ihl
  | @unary _ _ operator _ _ _ _ ha _ =>
    obtain ⟨_, rfl⟩ := applied?_eq_some_iff.mp ha
    cases operator <;> rfl
  | block _ _ _ ih => exact ih
  | conditional | whileLoop | forLoop => rfl
  | whereClause _ _ ih => exact ih

end HasType

/-- The type of a written type or a definition comes from that of another node: one below it, or
the definition it names. -/
def Feeds (arena : Arena) (bindings : NodeTable NodeId) (source id : NodeId) : Prop :=
  ∃ kind, arena.kind? id = some kind ∧
    (source ∈ kind.sources ∨ ∃ word, kind = .type (.name word) ∧ bindings.get? id = some source)

/-- What feeds a node is one of the sources of its kind, or what a type name is bound to. -/
theorem Feeds.of_kind {source : NodeId} {kind : NodeKind} (h : Feeds arena bindings source id)
    (hk : arena.kind? id = some kind) :
    source ∈ kind.sources ∨ ∃ word, kind = .type (.name word) ∧ bindings.get? id = some source := by
  obtain ⟨found, hk', hs⟩ := h
  cases hk.symm.trans hk'
  exact hs

/-- No chain of types that come from one another goes on forever behind a node with a type. -/
theorem HasType.acc (h : HasType arena bindings id type) : Acc (Feeds arena bindings) id := by
  induction h with
  | atom hk | literal hk | name hk | routine hk | call hk | binary hk | unary hk | block hk
  | conditional hk | whileLoop hk | forLoop hk | whereClause hk =>
    refine ⟨_, fun source hf => ?_⟩
    rcases hf.of_kind hk with hs | ⟨_, he, _⟩
    · simp [NodeKind.sources, WrittenType.children] at hs
    · cases he
  | array hk _ _ ih =>
    refine ⟨_, fun source hf => ?_⟩
    rcases hf.of_kind hk with hs | ⟨_, he, _⟩
    · obtain rfl : source = _ := by simpa [NodeKind.sources, WrittenType.children] using hs
      exact ih
    · cases he
  | typeName hk hb _ ih =>
    refine ⟨_, fun source hf => ?_⟩
    rcases hf.of_kind hk with hs | ⟨_, _, hb'⟩
    · simp [NodeKind.sources, WrittenType.children] at hs
    · cases hb.symm.trans hb'
      exact ih
  | storage hk hw _ ih =>
    refine ⟨_, fun source hf => ?_⟩
    rcases hf.of_kind hk with hs | ⟨_, he, _⟩
    · rw [NodeKind.sources_of_written? hw] at hs
      obtain rfl := List.mem_singleton.mp hs
      exact ih
    · cases he
  | function hk hlength _ _ ihp ihr =>
    refine ⟨_, fun source hf => ?_⟩
    rcases hf.of_kind hk with hs | ⟨_, he, _⟩
    · rcases List.mem_append.mp hs with hm | hm
      · obtain ⟨_, hentry⟩ := exists_mem_zip hlength hm
        exact ihp _ hentry
      · obtain rfl := List.mem_singleton.mp hm
        exact ihr
    · cases he

/-- The type of a node with a type does not come from itself. -/
theorem HasType.not_transGen (h : HasType arena bindings id type) :
    ¬Relation.TransGen (Feeds arena bindings) id id := by
  have irreflexive : ∀ {node}, Acc (Relation.TransGen (Feeds arena bindings)) node →
      ¬Relation.TransGen (Feeds arena bindings) node node := by
    intro node ha
    induction ha with
    | intro node _ ih => exact fun hself => ih node hself hself
  exact irreflexive h.acc.transGen

/-- All nodes of a program but definition lists have types, and the body of every function has the
type that is written for its result. -/
structure WellTyped (arena : Arena) (bindings : NodeTable NodeId) : Prop where
  /-- Every node but a definition list has a type. -/
  total : ∀ {id kind}, arena.kind? id = some kind → kind.isTyped = true →
    ∃ type, HasType arena bindings id type
  /-- The body of a function has the type of its result. -/
  body : ∀ {id name parameters result body},
    arena.kind? id = some (.definition (.function name parameters result body)) →
    ∃ type, HasType arena bindings result type ∧ HasType arena bindings body type

end Typing

end Pins
