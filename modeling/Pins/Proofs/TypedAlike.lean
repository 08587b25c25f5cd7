import Pins.Proofs.Alike
import Pins.Proofs.HasType

/-!
# Typing alike arenas

Types do not depend on names or places: over alike arenas, under the same bindings, the pass finds
the same types in the same order (`checks_same`). The two runs may also have different bounds, if
the comparison excuses a first run that reaches its bound.
-/

namespace Pins

/-- What a node is bound to is a definition. -/
theorem Binding.BoundRight.exists_definition {arena : Arena} {id target : NodeId}
    {bound : Option NodeId} (h : BoundRight arena id bound) (hb : bound = some target) :
    ∃ definition, arena.definition? target = some definition := by
  subst hb
  unfold BoundRight at h
  split at h
  · cases h
  · obtain ⟨_, definition, he, hd, _⟩ := h
    cases he
    exact ⟨definition, hd⟩

/-- References of a program are bound to nodes of the program. -/
theorem Binding.Bound.index_lt {arena : Arena} {bindings : NodeTable NodeId} {id target : NodeId}
    (h : Bound arena bindings) (hid : id.index < arena.size)
    (hb : bindings.get? id = some target) : target.index < arena.size := by
  obtain ⟨definition, hd⟩ := (h id hid).exists_definition hb
  exact Arena.index_lt_size (Arena.kind?_of_definition? hd)

namespace Typing

variable {c : Pass.Comparison State} {arena arena' : Arena} {bindings : NodeTable NodeId}
  {names : NodeId → String} {known : NodeId → Prop} {id : NodeId} {type : Ty}
  {ofDefinition ofDefinition' ofWritten ofWritten' typeOf typeOf' : NodeId → Check Ty}
  {visit visit' : NodeId → Check Unit}

/-- From every state, the second step does the same. -/
abbrev Same {α : Type} (c : Pass.Comparison State) (step step' : Check α) : Prop :=
  Pass.Follows c Eq Eq (fun value => value) step step'

/-- The second one of two families of steps does the same at every known node. -/
abbrev Agrees {α : Type} (c : Pass.Comparison State) (known : NodeId → Prop)
    (step step' : NodeId → Check α) : Prop :=
  ∀ id, known id → Same c (step id) (step' id)

theorem same_pure {α : Type} (value : α) : Same c (pure value) (pure value) :=
  .pure (fun value => value) value

/-- The second parts start where the first ones end. -/
theorem Same.bind {α β : Type} {step step' : Check α} {next next' : α → Check β}
    (hs : Same c step step') (hn : ∀ value, Same c (next value) (next' value)) :
    Same c (step >>= next) (step' >>= next') :=
  Pass.Follows.bind hs hn

/-- What comes behind a look at the state may depend on it. -/
theorem same_get {α : Type} {next next' : State → Check α}
    (h : ∀ state, Same c (next state) (next' state)) : Same c (get >>= next) (get >>= next') :=
  .read (fun state => state) (fun state => state) (fun state => state) (fun _ _ he => he.symm) h

/-- Steps that stop at a node do the same if their faults only differ in the names of nodes. -/
theorem fail_same {α : Type} {fault found : Fault} (h : arena.Alike c names arena' known)
    (hid : known id)
    (he : (∀ other, known other → arena'.kind? other = arena.kind? other) → found = fault) :
    Same (α := α) c (fail arena id fault) (fail arena' id found) :=
  .throw (h.fault hid he)

section Steps

variable (h : arena.Alike c names arena' known) (hw : ∀ state, c.within state)

include h hw

theorem record_same (hid : known id) : Same c (record arena id type) (record arena' id type) := by
  refine same_get fun state => ?_
  split
  · exact Same.bind (.modify (fun _ _ => hw _) fun _ _ _ _ => rfl) fun _ => same_pure type
  · exact fail_same h hid fun _ => rfl

omit h hw in
theorem memoized_same {find find' : Check Ty} (hf : Same c find find') :
    Same c (memoized id find) (memoized id find') := by
  refine same_get fun state => ?_
  split
  · exact same_pure _
  · exact hf

theorem definitionStep_same (hd : Agrees c known ofDefinition ofDefinition')
    (ht : Agrees c known ofWritten ofWritten') (hid : known id) :
    Same c (definitionStep arena ofDefinition ofWritten id)
      (definitionStep arena' ofDefinition' ofWritten' id) := by
  obtain ⟨kind, hk, hk', -⟩ := h.kind hid
  have hbelow := h.child hid hk
  unfold definitionStep
  simp only [Arena.definition?, hk, hk']
  cases kind with
  | definitions | expression | type => exact fail_same h hid fun _ => rfl
  | definition item =>
    refine same_get fun state => ?_
    split
    · exact same_pure _
    · exact fail_same h hid fun he =>
        congrArg cycleFault (NodeKind.definition.inj (Arena.named_eq_self hid hk hk' he))
    · refine Same.bind (.modify (fun _ _ => hw _) fun _ _ he _ => he ▸ rfl) fun _ => ?_
      simp only [NodeKind.children] at hbelow
      cases item with
      | function word parameters result body =>
        simp only [Definition.children, List.mem_append, List.mem_cons] at hbelow
        refine Pass.Follows.bind (.mapM fun member hm => hd member (hbelow member (.inl hm)))
          fun types => ?_
        rw [List.map_id']
        refine Same.bind (ht result (hbelow result (by simp))) fun type => ?_
        exact record_same h hw hid
      | var word written | type word written | parameter word written =>
        exact Same.bind (ht written (hbelow written (by simp [Definition.children])))
          fun type => record_same h hw hid

theorem writtenStep_same (hreach : ∀ {id target}, known id → bindings.get? id = some target →
      known target) (hd : Agrees c known ofDefinition ofDefinition')
    (ht : Agrees c known ofWritten ofWritten') (hid : known id) :
    Same c (writtenStep arena bindings ofDefinition ofWritten id)
      (writtenStep arena' bindings ofDefinition' ofWritten' id) := by
  obtain ⟨kind, hk, hk', -⟩ := h.kind hid
  have hbelow := h.child hid hk
  refine memoized_same ?_
  simp only [Arena.type?, hk, hk']
  cases kind with
  | definitions | definition | expression => exact fail_same h hid fun _ => rfl
  | type item =>
    cases item with
    | atom word => exact record_same h hw hid
    | array length element =>
      refine Same.bind (ht element (hbelow element (by simp [NodeKind.children,
        WrittenType.children]))) fun type => ?_
      split
      · exact record_same h hw hid
      · exact fail_same h hid fun _ => rfl
    | name word =>
      dsimp only [NodeKind.named, WrittenType.named]
      split
      · refine fail_same h hid fun he => ?_
        have hname := NodeKind.type.inj (Arena.named_eq_self hid hk hk' he)
        rw [WrittenType.name.inj hname]
      · next target hb =>
        exact Same.bind (hd target (hreach hid hb)) fun type => record_same h hw hid

omit hw in
theorem refuseOperands_same {operator : String} {operands : List Ty} (hid : known id) :
    Same (α := Ty) c (refuseOperands arena id operator operands)
      (refuseOperands arena' id operator operands) :=
  fail_same h hid fun _ => rfl

omit hw in
theorem binaryType_same {left right : NodeId} {operator : BinaryOperator} {leftType rightType : Ty}
    (hid : known id) (hl : known left) (hr : known right) :
    Same c (binaryType arena id left right operator leftType rightType)
      (binaryType arena' id left right operator leftType rightType) := by
  unfold binaryType
  cases operator with
  | or | and | add | sub | mul | div | mod | eq | neq | lt | gt | leq | geq =>
    dsimp only
    split
    · exact same_pure _
    · exact refuseOperands_same h hid
  | index =>
    dsimp only
    split
    · exact fail_same h hl fun _ => rfl
    · split
      · exact same_pure _
      · exact refuseOperands_same h hr
  | assign =>
    dsimp only
    split
    · exact same_pure _
    · exact fail_same h hid fun _ => rfl

omit hw in
theorem condition_same (ht : Agrees c known typeOf typeOf') (hid : known id) :
    Same c (condition arena typeOf id) (condition arena' typeOf' id) := by
  refine Same.bind (ht id hid) fun type => ?_
  split
  · exact same_pure _
  · exact fail_same h hid fun _ => rfl

omit hw in
theorem loopPart_same {part : String} (ht : Agrees c known typeOf typeOf') (hid : known id) :
    Same c (loopPart arena typeOf part id) (loopPart arena' typeOf' part id) := by
  refine Same.bind (ht id hid) fun type => ?_
  split
  · exact same_pure _
  · exact fail_same h hid fun _ => rfl

omit hw in
theorem checkArguments_same {callee name : String} {arguments : List NodeId} {parameters : List Ty}
    {index : Nat} (ht : Agrees c known typeOf typeOf') (hm : ∀ argument ∈ arguments, known argument)
    (he : (∀ other, known other → arena'.kind? other = arena.kind? other) → name = callee) :
    Same c (checkArguments arena typeOf callee index arguments parameters)
      (checkArguments arena' typeOf' name index arguments parameters) := by
  induction arguments generalizing index parameters with
  | nil => exact same_pure _
  | cons argument arguments ih =>
    cases parameters with
    | nil => exact same_pure _
    | cons parameter parameters =>
      refine Same.bind (ht argument (hm argument List.mem_cons_self)) fun type => ?_
      split
      · exact ih fun other ho => hm other (List.mem_cons_of_mem _ ho)
      · exact fail_same h (hm argument List.mem_cons_self) fun hk => by rw [he hk]

omit hw in
theorem callType_same (hreach : ∀ {id target}, known id → bindings.get? id = some target →
      known target) {callee name : String} {arguments : List NodeId}
    (hd : Agrees c known ofDefinition ofDefinition') (ht : Agrees c known typeOf typeOf')
    (hid : known id) (hm : ∀ argument ∈ arguments, known argument)
    (hs : Builtin.signature? name = Builtin.signature? callee)
    (he : (∀ other, known other → arena'.kind? other = arena.kind? other) → name = callee) :
    Same c (callType arena bindings ofDefinition typeOf id callee arguments)
      (callType arena' bindings ofDefinition' typeOf' id name arguments) := by
  have hsignature : Same c (signature arena bindings ofDefinition id callee)
      (signature arena' bindings ofDefinition' id name) := by
    unfold signature
    rw [hs]
    split
    · exact same_pure _
    · next target _ hb => exact hd target (hreach hid hb)
    · exact fail_same h hid fun hk => by rw [he hk]
  refine hsignature.bind fun found => ?_
  split
  · split
    · exact Same.bind (checkArguments_same h ht hm he) fun _ => same_pure _
    · exact fail_same h hid fun hk => by rw [he hk]
  · exact fail_same h hid fun hk => by rw [he hk]

omit h hw in
theorem lastType_same {expressions : List NodeId} (ht : Agrees c known typeOf typeOf')
    (hm : ∀ expression ∈ expressions, known expression) :
    Same c (lastType typeOf expressions) (lastType typeOf' expressions) := by
  induction expressions with
  | nil => exact same_pure _
  | cons expression others ih =>
    have hfirst := ht expression (hm expression List.mem_cons_self)
    cases others with
    | nil => exact hfirst.bind fun type => same_pure (some type)
    | cons => exact hfirst.bind fun _ => ih fun other ho => hm other (List.mem_cons_of_mem _ ho)

omit h hw in
/-- A call that keeps its name as far as routines go keeps its signature. -/
theorem signature?_eq_of_keeps {callee name : String} {arguments : List NodeId}
    (hkeeps : (NodeKind.expression (.call callee arguments)).Keeps name) :
    Builtin.signature? name = Builtin.signature? callee := by
  rcases hkeeps with rfl | ⟨hcallee, hname⟩
  · rfl
  · rw [← Builtin.isSome_signature?, Option.isSome_eq_false_iff, Option.isNone_iff_eq_none] at *
    rw [hcallee, hname]

variable (hreach : ∀ {id target}, known id → bindings.get? id = some target → known target)
  (hd : Agrees c known ofDefinition ofDefinition') (ht : Agrees c known typeOf typeOf')
  (hv : Agrees c known visit visit')

include hreach hd ht hv

omit hw in
theorem expressionStep_same {item : Expression} {name : String} (hid : known id)
    (hk : arena.kind? id = some (.expression item))
    (hk' : arena'.kind? id = some (NodeKind.named name (.expression item)))
    (hkeeps : (NodeKind.expression item).Keeps name) :
    Same c (expressionStep arena bindings ofDefinition typeOf visit id item)
      (expressionStep arena' bindings ofDefinition' typeOf' visit' id (item.named name)) := by
  have hbelow := h.child hid hk
  have hname : (∀ other, known other → arena'.kind? other = arena.kind? other) →
      item.named name = item := fun he =>
    NodeKind.expression.inj (Arena.named_eq_self hid hk hk' he)
  simp only [NodeKind.children] at hbelow
  cases item with
  | literal => exact same_pure _
  | name word =>
    dsimp only [Expression.named, expressionStep]
    split
    · exact fail_same h hid fun he => by rw [Expression.name.inj (hname he)]
    · next target hb => exact hd target (hreach hid hb)
  | call callee arguments =>
    exact callType_same h hreach hd ht hid hbelow (signature?_eq_of_keeps hkeeps)
      fun he => (Expression.call.inj (hname he)).1
  | binary operator left right =>
    have hl := hbelow left (by simp [Expression.children])
    have hr := hbelow right (by simp [Expression.children])
    exact (ht left hl).bind fun _ => (ht right hr).bind fun _ => binaryType_same h hid hl hr
  | unary operator operand =>
    refine (ht operand (hbelow operand (by simp [Expression.children]))).bind fun type => ?_
    split
    · exact same_pure _
    · exact refuseOperands_same h hid
  | block expressions =>
    refine (lastType_same ht hbelow).bind fun found => ?_
    split
    · exact same_pure _
    · exact fail_same h hid fun _ => rfl
  | conditional test thenBranch elseBranch =>
    simp only [Expression.children, List.mem_cons] at hbelow
    refine (condition_same h ht (hbelow test (by simp))).bind fun _ => ?_
    refine (ht thenBranch (hbelow thenBranch (by simp))).bind fun _ => ?_
    refine Same.bind (.forM fun branch hm => ?_) fun _ => same_pure _
    exact (ht branch (hbelow branch (.inr (.inr hm)))).bind fun _ => same_pure _
  | whileLoop test body =>
    simp only [Expression.children, List.mem_cons] at hbelow
    refine (condition_same h ht (hbelow test (by simp))).bind fun _ => ?_
    exact (ht body (hbelow body (by simp))).bind fun _ => same_pure _
  | forLoop counter low high step body =>
    simp only [Expression.children, List.mem_cons] at hbelow
    refine (loopPart_same h ht (hbelow counter (by simp))).bind fun _ => ?_
    refine (loopPart_same h ht (hbelow low (by simp))).bind fun _ => ?_
    refine (loopPart_same h ht (hbelow high (by simp))).bind fun _ => ?_
    refine (loopPart_same h ht (hbelow step (by simp))).bind fun _ => ?_
    exact (ht body (hbelow body (by simp))).bind fun _ => same_pure _
  | whereClause inner body =>
    simp only [Expression.children, List.mem_cons] at hbelow
    exact (hv inner (hbelow inner (by simp))).bind fun _ => ht body (hbelow body (by simp))

omit hw hreach in
theorem nodeStep_same (hwritten : Agrees c known ofWritten ofWritten') (hid : known id) :
    Same c (nodeStep arena ofDefinition ofWritten typeOf visit id)
      (nodeStep arena' ofDefinition' ofWritten' typeOf' visit' id) := by
  obtain ⟨kind, hk, hk', -⟩ := h.kind hid
  have hbelow := h.child hid hk
  unfold nodeStep
  simp only [hk, hk']
  cases kind with
  | definitions members => exact .forM fun member hm => hv member (hbelow member hm)
  | definition item =>
    have hname : (∀ other, known other → arena'.kind? other = arena.kind? other) →
        item.named (names id) = item := fun he =>
      NodeKind.definition.inj (Arena.named_eq_self hid hk hk' he)
    cases item with
    | function word parameters result body =>
      have hb : known body := hbelow body (by simp [NodeKind.children, Definition.children])
      refine (hd id hid).bind fun type => ?_
      split
      · refine (ht body hb).bind fun found => ?_
        split
        · exact same_pure _
        · exact fail_same h hb fun he => by rw [(Definition.function.inj (hname he)).1]
      · exact fail_same h hid fun he => by rw [(Definition.function.inj (hname he)).1]
    | var | type | parameter => exact (hd id hid).bind fun _ => same_pure _
  | expression => exact (ht id hid).bind fun _ => same_pure _
  | type => exact (hwritten id hid).bind fun _ => same_pure _

end Steps

variable (h : arena.Alike c names arena' known) (hw : ∀ state, c.within state)
  (hreach : ∀ {id target}, known id → bindings.get? id = some target → known target)

/-- A second run may have a larger bound if the comparison excuses a first run that reaches its
bound. -/
def Bounded (c : Pass.Comparison State) (fuel more : Nat) : Prop :=
  fuel ≤ more ∧ (fuel < more → ∀ diagnostic message, diagnostic.fault = .internalError message →
    c.excuses diagnostic)

theorem Bounded.refl (fuel : Nat) : Bounded c fuel fuel :=
  ⟨Nat.le_refl fuel, fun h => absurd h (Nat.lt_irrefl fuel)⟩

include h hw hreach

/-- Lookups under two bounds do the same. -/
theorem lookups_same {fuel more : Nat} (hb : Bounded c fuel more) :
    Agrees c known (definitionTypeWithin arena bindings fuel)
        (definitionTypeWithin arena' bindings more) ∧
      Agrees c known (writtenTypeWithin arena bindings fuel)
        (writtenTypeWithin arena' bindings more) := by
  obtain ⟨hle, hx⟩ := hb
  induction fuel generalizing more with
  | zero =>
    cases more with
    | zero => exact ⟨fun id hid => fail_same h hid fun _ => rfl,
        fun id hid => fail_same h hid fun _ => rfl⟩
    | succ more =>
      exact ⟨fun id _ => .excused (hx (Nat.succ_pos more) _ _ rfl),
        fun id _ => .excused (hx (Nat.succ_pos more) _ _ rfl)⟩
  | succ fuel ih =>
    cases more with
    | zero => omega
    | succ more =>
      have hbelow := ih (Nat.le_of_succ_le_succ hle) fun hlt => hx (Nat.succ_lt_succ hlt)
      exact ⟨fun id hid => definitionStep_same h hw hbelow.1 hbelow.2 hid,
        fun id hid => writtenStep_same h hw hreach hbelow.1 hbelow.2 hid⟩

/-- Checks under two bounds do the same. -/
theorem checks_same {fuel more : Nat} (hb : Bounded c fuel more) :
    Agrees c known (expressionTypeWithin arena bindings fuel)
        (expressionTypeWithin arena' bindings more) ∧
      Agrees c known (checkWithin arena bindings fuel) (checkWithin arena' bindings more) := by
  obtain ⟨hle, hx⟩ := hb
  induction fuel generalizing more with
  | zero =>
    cases more with
    | zero => exact ⟨fun id hid => fail_same h hid fun _ => rfl,
        fun id hid => fail_same h hid fun _ => rfl⟩
    | succ more =>
      exact ⟨fun id _ => .excused (hx (Nat.succ_pos more) _ _ rfl),
        fun id _ => .excused (hx (Nat.succ_pos more) _ _ rfl)⟩
  | succ fuel ih =>
    cases more with
    | zero => omega
    | succ more =>
      have hbounded : Bounded c fuel more :=
        ⟨Nat.le_of_succ_le_succ hle, fun hlt => hx (Nat.succ_lt_succ hlt)⟩
      have hbelow := ih hbounded.1 hbounded.2
      have hlookups := lookups_same h hw hreach hbounded
      constructor
      · intro id hid
        obtain ⟨kind, hk, hk', hkeeps⟩ := h.kind hid
        refine memoized_same ?_
        simp only [Arena.expression?, hk, hk']
        cases kind with
        | definitions | definition | type => exact fail_same h hid fun _ => rfl
        | expression item =>
          exact (expressionStep_same h hreach hlookups.1 hbelow.1 hbelow.2 hid hk hk' hkeeps).bind
            fun type => record_same h hw hid
      · exact fun id hid => nodeStep_same h hlookups.1 hbelow.1 hbelow.2 hlookups.2 hid

end Typing

end Pins
