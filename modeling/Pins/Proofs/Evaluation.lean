import Mathlib.Logic.Function.Basic
import Pins.Proofs.HasType
import Pins.Proofs.Rounds

/-!
# Evaluating expressions

What an expression means is said on the program itself, without code. A store gives every variable
in scope a word; a truth value is 0 or 1. Operands are evaluated from left to right, all of them. An
assignment has the value that it assigns, a sequence that of its last expression, and a control
structure the value 0. Calls, strings and arrays are left aside, and a division by zero has no
value.

Evaluation keeps truth values: as long as logical variables are 0 or 1, so is whatever a logical
expression evaluates to (`Evaluates.truthful`).
-/

namespace Pins

/-- A variable in scope. -/
abbrev Cell (scope : NodeId → Prop) := {id : NodeId // scope id}

/-- A word for every variable in scope. -/
abbrev Store (scope : NodeId → Prop) := Cell scope → Int32

/-- The value of an operation, if it has one. Numbers wrap around; a division rounds towards
zero. -/
def BinaryOperator.apply? : BinaryOperator → Int32 → Int32 → Option Int32
  | or, left, right => some (truth (left != 0 || right != 0))
  | and, left, right => some (truth (left != 0 && right != 0))
  | eq, left, right => some (truth (left == right))
  | neq, left, right => some (truth (left != right))
  | lt, left, right => some (truth (decide (left < right)))
  | gt, left, right => some (truth (decide (right < left)))
  | leq, left, right => some (truth (decide (left ≤ right)))
  | geq, left, right => some (truth (decide (right ≤ left)))
  | add, left, right => some (left + right)
  | sub, left, right => some (left - right)
  | mul, left, right => some (left * right)
  | div, left, right => if right = 0 then none else some (left / right)
  | mod, left, right => if right = 0 then none else some (left % right)
  | index, _, _ | assign, _, _ => none

/-- The value of an operator before its operand. -/
def UnaryOperator.apply : UnaryOperator → Int32 → Int32
  | plus, operand => operand
  | minus, operand => -operand
  | not, operand => truth (operand == 0)

/-- What is evaluated: an expression, some expressions one behind the other, or the rounds of a
counting loop whose counter is set. -/
inductive Phrase where
  | expression (id : NodeId)
  | sequence (ids : List NodeId)
  | counting (counter high step body : NodeId)

/-- From a store, a phrase evaluates to a word and leaves a store. -/
inductive Evaluates (arena : Arena) (bindings : NodeTable NodeId) (scope : NodeId → Prop) :
    Phrase → Store scope → Int32 → Store scope → Prop where
  | integer {id : NodeId} {text : String} {number : Int} {store : Store scope}
      (hk : arena.kind? id = some (.expression (.literal text .integer)))
      (hn : Text.signed? text = some number) :
      Evaluates arena bindings scope (.expression id) store (Int32.ofInt number) store
  | logical {id : NodeId} {text : String} {store : Store scope}
      (hk : arena.kind? id = some (.expression (.literal text .logical))) :
      Evaluates arena bindings scope (.expression id) store (truth (text == "true")) store
  | name {id : NodeId} {word : String} {cell : Cell scope}
      {store : Store scope} (hk : arena.kind? id = some (.expression (.name word)))
      (hb : bindings.get? id = some cell.1) :
      Evaluates arena bindings scope (.expression id) store (store cell) store
  | binary {id left right : NodeId} {operator : BinaryOperator}
      {before between after : Store scope} {first second value : Int32}
      (hk : arena.kind? id = some (.expression (.binary operator left right)))
      (hl : Evaluates arena bindings scope (.expression left) before first between)
      (hr : Evaluates arena bindings scope (.expression right) between second after)
      (ho : operator.apply? first second = some value) :
      Evaluates arena bindings scope (.expression id) before value after
  | assign {id target source : NodeId} {word : String} {cell : Cell scope}
      {before after : Store scope} {value : Int32}
      (hk : arena.kind? id = some (.expression (.binary .assign target source)))
      (ht : arena.kind? target = some (.expression (.name word)))
      (hb : bindings.get? target = some cell.1)
      (hs : Evaluates arena bindings scope (.expression source) before value after) :
      Evaluates arena bindings scope (.expression id) before value
        (Function.update after cell value)
  | unary {id operand : NodeId} {operator : UnaryOperator} {before after : Store scope}
      {value : Int32} (hk : arena.kind? id = some (.expression (.unary operator operand)))
      (ho : Evaluates arena bindings scope (.expression operand) before value after) :
      Evaluates arena bindings scope (.expression id) before (operator.apply value) after
  | block {id : NodeId} {ids : List NodeId} {before after : Store scope} {value : Int32}
      (hk : arena.kind? id = some (.expression (.block ids)))
      (hs : Evaluates arena bindings scope (.sequence ids) before value after) :
      Evaluates arena bindings scope (.expression id) before value after
  | last {id : NodeId} {before after : Store scope} {value : Int32}
      (he : Evaluates arena bindings scope (.expression id) before value after) :
      Evaluates arena bindings scope (.sequence [id]) before value after
  | front {id : NodeId} {ids : List NodeId} {before between after : Store scope}
      {ignored value : Int32}
      (he : Evaluates arena bindings scope (.expression id) before ignored between)
      (hs : Evaluates arena bindings scope (.sequence ids) between value after) :
      Evaluates arena bindings scope (.sequence (id :: ids)) before value after
  | chosen {id condition thenBranch : NodeId} {elseBranch : Option NodeId}
      {before between after : Store scope} {test ignored : Int32}
      (hk : arena.kind? id =
        some (.expression (.conditional condition thenBranch elseBranch)))
      (hc : Evaluates arena bindings scope (.expression condition) before test between)
      (hn : test ≠ 0)
      (ht : Evaluates arena bindings scope (.expression thenBranch) between ignored after) :
      Evaluates arena bindings scope (.expression id) before 0 after
  | otherwise {id condition thenBranch elseBranch : NodeId}
      {before between after : Store scope} {ignored : Int32}
      (hk : arena.kind? id =
        some (.expression (.conditional condition thenBranch (some elseBranch))))
      (hc : Evaluates arena bindings scope (.expression condition) before 0 between)
      (he : Evaluates arena bindings scope (.expression elseBranch) between ignored after) :
      Evaluates arena bindings scope (.expression id) before 0 after
  | skipped {id condition thenBranch : NodeId} {before after : Store scope}
      (hk : arena.kind? id = some (.expression (.conditional condition thenBranch none)))
      (hc : Evaluates arena bindings scope (.expression condition) before 0 after) :
      Evaluates arena bindings scope (.expression id) before 0 after
  | whileDone {id condition body : NodeId} {before after : Store scope}
      (hk : arena.kind? id = some (.expression (.whileLoop condition body)))
      (hc : Evaluates arena bindings scope (.expression condition) before 0 after) :
      Evaluates arena bindings scope (.expression id) before 0 after
  | whileMore {id condition body : NodeId} {before tested between after : Store scope}
      {test ignored : Int32} (hk : arena.kind? id = some (.expression (.whileLoop condition body)))
      (hc : Evaluates arena bindings scope (.expression condition) before test tested)
      (hn : test ≠ 0)
      (hb : Evaluates arena bindings scope (.expression body) tested ignored between)
      (hw : Evaluates arena bindings scope (.expression id) between 0 after) :
      Evaluates arena bindings scope (.expression id) before 0 after
  | forLoop {id counter low high step body : NodeId} {word : String} {cell : Cell scope}
      {before between after : Store scope} {value : Int32}
      (hk : arena.kind? id = some (.expression (.forLoop counter low high step body)))
      (hn : arena.kind? counter = some (.expression (.name word)))
      (hb : bindings.get? counter = some cell.1)
      (hl : Evaluates arena bindings scope (.expression low) before value between)
      (hc : Evaluates arena bindings scope (.counting counter high step body)
        (Function.update between cell value) 0 after) :
      Evaluates arena bindings scope (.expression id) before 0 after
  | countDone {counter high step body : NodeId} {cell : Cell scope}
      {before after : Store scope} {bound : Int32}
      (hb : bindings.get? counter = some cell.1)
      (hh : Evaluates arena bindings scope (.expression high) before bound after)
      (hge : ¬before cell < bound) :
      Evaluates arena bindings scope (.counting counter high step body) before 0 after
  | countMore {counter high step body : NodeId} {cell : Cell scope}
      {before tested between stepped after : Store scope} {bound ignored width : Int32}
      (hb : bindings.get? counter = some cell.1)
      (hh : Evaluates arena bindings scope (.expression high) before bound tested)
      (hlt : before cell < bound)
      (hbody : Evaluates arena bindings scope (.expression body) tested ignored between)
      (hs : Evaluates arena bindings scope (.expression step) between width stepped)
      (hc : Evaluates arena bindings scope (.counting counter high step body)
        (Function.update stepped cell (between cell + width)) 0 after) :
      Evaluates arena bindings scope (.counting counter high step body) before 0 after
  | whereClause {id inner body : NodeId} {before after : Store scope} {value : Int32}
      (hk : arena.kind? id = some (.expression (.whereClause inner body)))
      (hb : Evaluates arena bindings scope (.expression body) before value after) :
      Evaluates arena bindings scope (.expression id) before value after

variable {arena : Arena} {bindings : NodeTable NodeId} {scope : NodeId → Prop} {phrase : Phrase}
  {before after : Store scope} {value : Int32} {cell : Cell scope} {id : NodeId}

open Typing (HasType WellTyped)

/-- A reference means one variable. -/
theorem Cell.unique {other : Cell scope} (hb : bindings.get? id = some cell.1)
    (hb' : bindings.get? id = some other.1) : cell = other :=
  Subtype.ext (Option.some.inj (hb.symm.trans hb'))

/-- Logical variables have truth values. -/
def Truthful (arena : Arena) (bindings : NodeTable NodeId) (store : Store scope) : Prop :=
  ∀ cell : Cell scope, HasType arena bindings cell.1 .logical → IsTruth (store cell)

/-- A phrase evaluates to a truth value: its type is logical. -/
def Phrase.IsLogical (arena : Arena) (bindings : NodeTable NodeId) : Phrase → Prop
  | expression id => HasType arena bindings id .logical
  | sequence ids => ∃ last, ids.getLast? = some last ∧ HasType arena bindings last .logical
  | counting .. => False

/-- A phrase counts, if at all, in a variable that is named and keeps a number. -/
def Phrase.Counts (arena : Arena) (bindings : NodeTable NodeId) : Phrase → Prop
  | counting counter _ _ _ =>
    HasType arena bindings counter .integer ∧
      ∃ word, arena.kind? counter = some (.expression (.name word))
  | _ => True

/-- A variable that is set to a truth value if it is logical leaves logical variables truthful. -/
theorem Truthful.update (h : Truthful arena bindings before)
    (hv : HasType arena bindings cell.1 .logical → IsTruth value) :
    Truthful arena bindings (Function.update before cell value) := by
  intro other ht
  rcases eq_or_ne other cell with rfl | hne
  · rw [Function.update_self]
    exact hv ht
  · rw [Function.update_of_ne hne]
    exact h other ht

/-- Comparisons and logical operations have truth values. -/
theorem BinaryOperator.isTruth_of_apply? {operator : BinaryOperator} {left right : Ty}
    {first second : Int32} (ho : operator.apply? first second = some value)
    (hc : Typing.combined? operator left right = some .logical) : IsTruth value := by
  cases operator with
  | or | and | eq | neq | lt | gt | leq | geq =>
    cases ho
    exact isTruth_truth _
  | index | assign => cases ho
  | add | sub | mul | div | mod => cases left <;> cases right <;> cases hc

/-- What a name is bound to has its type. -/
theorem Typing.HasType.of_name {word : String} {type : Ty} {target : NodeId}
    (h : HasType arena bindings id type) (hk : arena.kind? id = some (.expression (.name word)))
    (hb : bindings.get? id = some target) : HasType arena bindings target type := by
  obtain ⟨found, hb', htarget⟩ := h.derives hk
  cases hb.symm.trans hb'
  exact htarget

/-- A variable that counts is not logical, so it may be set to any word. -/
theorem Truthful.count {counter : NodeId} {word : String}
    (h : Truthful arena bindings before) (hc : HasType arena bindings counter .integer)
    (hn : arena.kind? counter = some (.expression (.name word)))
    (hb : bindings.get? counter = some cell.1) (value : Int32) :
    Truthful arena bindings (Function.update before cell value) := by
  refine h.update fun hl => ?_
  cases (hc.of_name hn hb).unique hl

/-- An assignment and its sides have one type. -/
theorem Typing.HasType.sides {target source : NodeId} {type : Ty}
    (h : HasType arena bindings id type)
    (hk : arena.kind? id = some (.expression (.binary .assign target source))) :
    HasType arena bindings target type ∧ HasType arena bindings source type := by
  obtain ⟨left, right, hleft, hright, hcombined⟩ := h.derives hk
  simp only [Typing.combined?] at hcombined
  split at hcombined
  · next hsame =>
    cases hcombined
    exact ⟨hleft, hsame.1 ▸ hright⟩
  · cases hcombined

/-- The sides of a conjunction or disjunction are logical. -/
theorem Typing.HasType.logical_sides {operator : BinaryOperator} {left right : NodeId} {type : Ty}
    (h : HasType arena bindings id type)
    (hk : arena.kind? id = some (.expression (.binary operator left right)))
    (ho : operator = .or ∨ operator = .and) :
    HasType arena bindings left .logical ∧ HasType arena bindings right .logical := by
  obtain ⟨leftType, rightType, hleft, hright, hcombined⟩ := h.derives hk
  rcases ho with rfl | rfl
  all_goals
    cases leftType <;> cases rightType <;> cases hcombined
    exact ⟨hleft, hright⟩

namespace Evaluates

/-- Evaluation keeps logical variables truthful, and a logical phrase has a truth value. -/
theorem truthful (hw : WellTyped arena bindings)
    (h : Evaluates arena bindings scope phrase before value after)
    (hc : phrase.Counts arena bindings) (hb : Truthful arena bindings before) :
    Truthful arena bindings after ∧ (phrase.IsLogical arena bindings → IsTruth value) := by
  induction h with
  | integer hk hn =>
    refine ⟨hb, fun hl => ?_⟩
    cases hl.derives hk
  | logical hk => exact ⟨hb, fun _ => isTruth_truth _⟩
  | name hk hbound => exact ⟨hb, fun hl => hb _ (hl.of_name hk hbound)⟩
  | binary hk _ _ ho ihl ihr =>
    obtain ⟨hbetween, _⟩ := ihl trivial hb
    obtain ⟨hafter, _⟩ := ihr trivial hbetween
    refine ⟨hafter, fun hl => ?_⟩
    obtain ⟨left, right, _, _, hcombined⟩ := hl.derives hk
    exact BinaryOperator.isTruth_of_apply? ho hcombined
  | assign hk ht hbound _ ih =>
    obtain ⟨hafter, hvalue⟩ := ih trivial hb
    refine ⟨hafter.update fun hl => hvalue ?_, fun hl => hvalue (hl.sides hk).2⟩
    obtain ⟨type, htype⟩ := hw.total hk rfl
    obtain ⟨htarget, hsource⟩ := htype.sides hk
    rwa [(htarget.of_name ht hbound).unique hl] at hsource
  | @unary _ _ operator _ _ _ hk _ ih =>
    obtain ⟨hafter, _⟩ := ih trivial hb
    refine ⟨hafter, fun hl => ?_⟩
    obtain ⟨_, _, happlied⟩ := hl.derives hk
    obtain ⟨_, htype⟩ := Typing.applied?_eq_some_iff.mp happlied
    cases operator with
    | plus | minus => cases htype
    | not => exact isTruth_truth _
  | block hk _ ih =>
    obtain ⟨hafter, hvalue⟩ := ih trivial hb
    exact ⟨hafter, fun hl => hvalue (hl.derives hk)⟩
  | last _ ih =>
    obtain ⟨hafter, hvalue⟩ := ih trivial hb
    refine ⟨hafter, fun hl => ?_⟩
    obtain ⟨last, hlast, hl⟩ := hl
    cases hlast
    exact hvalue hl
  | @front _ ids _ _ _ _ _ _ hs ihe ihs =>
    obtain ⟨hbetween, _⟩ := ihe trivial hb
    obtain ⟨hafter, hvalue⟩ := ihs trivial hbetween
    refine ⟨hafter, fun hl => hvalue ?_⟩
    obtain ⟨last, hlast, hl⟩ := hl
    refine ⟨last, ?_, hl⟩
    cases ids with
    | nil => cases hs
    | cons next others => rwa [List.getLast?_cons_cons] at hlast
  | chosen _ _ _ _ ihc iht =>
    obtain ⟨hbetween, _⟩ := ihc trivial hb
    exact ⟨(iht trivial hbetween).1, fun _ => .inl rfl⟩
  | otherwise _ _ _ ihc ihe =>
    obtain ⟨hbetween, _⟩ := ihc trivial hb
    exact ⟨(ihe trivial hbetween).1, fun _ => .inl rfl⟩
  | skipped _ _ ihc => exact ⟨(ihc trivial hb).1, fun _ => .inl rfl⟩
  | whileDone _ _ ihc => exact ⟨(ihc trivial hb).1, fun _ => .inl rfl⟩
  | whileMore _ _ _ _ _ ihc ihb ihw =>
    obtain ⟨htested, _⟩ := ihc trivial hb
    obtain ⟨hbetween, _⟩ := ihb trivial htested
    exact ihw trivial hbetween
  | forLoop hk hn hbound _ _ ihl ihc =>
    obtain ⟨type, htype⟩ := hw.total hk rfl
    obtain ⟨hcounter, _⟩ := htype.derives hk
    obtain ⟨hbetween, _⟩ := ihl trivial hb
    exact ⟨(ihc ⟨hcounter, _, hn⟩ (hbetween.count hcounter hn hbound _)).1, fun _ => .inl rfl⟩
  | countDone _ _ _ ihh => exact ⟨(ihh trivial hb).1, fun _ => .inl rfl⟩
  | countMore hbound _ _ _ _ _ ihh ihb ihs ihc =>
    obtain ⟨hcounter, word, hn⟩ := hc
    obtain ⟨htested, _⟩ := ihh trivial hb
    obtain ⟨hbetween, _⟩ := ihb trivial htested
    obtain ⟨hstepped, _⟩ := ihs trivial hbetween
    exact ⟨(ihc ⟨hcounter, word, hn⟩ (hstepped.count hcounter hn hbound _)).1, fun _ => .inl rfl⟩
  | whereClause hk _ ih =>
    obtain ⟨hafter, hvalue⟩ := ih trivial hb
    exact ⟨hafter, fun hl => hvalue (hl.derives hk)⟩

end Evaluates

/-- An expression evaluates to a word. -/
abbrev Yields (arena : Arena) (bindings : NodeTable NodeId) (id : NodeId) (before : Store scope)
    (value : Int32) (after : Store scope) : Prop :=
  Evaluates arena bindings scope (.expression id) before value after

/-- An expression is evaluated for its effects. -/
def Performs (arena : Arena) (bindings : NodeTable NodeId) (id : NodeId)
    (before after : Store scope) : Prop :=
  ∃ value, Yields arena bindings id before value after

/-- What a condition finds, and the store it leaves. -/
def Decides (arena : Arena) (bindings : NodeTable NodeId) (condition : NodeId)
    (before : Store scope) (holds : Bool) (after : Store scope) : Prop :=
  ∃ value, Yields arena bindings condition before value after ∧ holds = (value != 0)

/-- A counter is set to the lower bound. -/
def Sets (arena : Arena) (bindings : NodeTable NodeId) (cell : Cell scope) (low : NodeId)
    (before after : Store scope) : Prop :=
  ∃ value between, Yields arena bindings low before value between ∧
    after = Function.update between cell value

/-- A counter is compared with the upper bound; it is read before the bound is evaluated. -/
def Compares (arena : Arena) (bindings : NodeTable NodeId) (cell : Cell scope) (high : NodeId)
    (before : Store scope) (holds : Bool) (after : Store scope) : Prop :=
  ∃ bound, Yields arena bindings high before bound after ∧ holds = decide (before cell < bound)

/-- The body is run and the counter raised; it is read before the step is evaluated. -/
def Advances (arena : Arena) (bindings : NodeTable NodeId) (cell : Cell scope)
    (step body : NodeId) (before after : Store scope) : Prop :=
  ∃ between width stepped, Performs arena bindings body before between ∧
    Yields arena bindings step between width stepped ∧
    after = Function.update stepped cell (between cell + width)

/-- A branch is evaluated for its effects, if there is one. -/
def Continues (arena : Arena) (bindings : NodeTable NodeId) (branch : Option NodeId)
    (before after : Store scope) : Prop :=
  match branch with
  | some id => Performs arena bindings id before after
  | none => after = before

/-- What the rules for an expression ask of its parts. -/
def Expression.Means (arena : Arena) (bindings : NodeTable NodeId) (id : NodeId)
    (before : Store scope) (value : Int32) (after : Store scope) : Expression → Prop
  | literal text .integer =>
    ∃ number, Text.signed? text = some number ∧ value = Int32.ofInt number ∧ after = before
  | literal text .logical => value = truth (text == "true") ∧ after = before
  | literal _ .string | call .. => False
  | name _ =>
    ∃ cell : Cell scope, bindings.get? id = some cell.1 ∧ value = before cell ∧ after = before
  | binary .assign target source =>
    ∃ word, ∃ cell : Cell scope, ∃ stored,
      arena.kind? target = some (.expression (.name word)) ∧
      bindings.get? target = some cell.1 ∧ Yields arena bindings source before value stored ∧
      after = Function.update stored cell value
  | binary operator left right =>
    ∃ first between second, Yields arena bindings left before first between ∧
      Yields arena bindings right between second after ∧
      operator.apply? first second = some value
  | unary operator operand =>
    ∃ word, Yields arena bindings operand before word after ∧ value = operator.apply word
  | block ids => Evaluates arena bindings scope (.sequence ids) before value after
  | conditional condition thenBranch elseBranch =>
    value = 0 ∧ ∃ holds between, Decides arena bindings condition before holds between ∧
      (if holds then Performs arena bindings thenBranch else Continues arena bindings elseBranch)
        between after
  | whileLoop condition body =>
    value = 0 ∧
      Rounds (Decides arena bindings condition) (Performs arena bindings body) before after
  | forLoop counter low high step body =>
    value = 0 ∧ ∃ word, ∃ cell : Cell scope,
      arena.kind? counter = some (.expression (.name word)) ∧
      bindings.get? counter = some cell.1 ∧ ∃ between, Sets arena bindings cell low before between ∧
      Rounds (Compares arena bindings cell high) (Advances arena bindings cell step body) between
        after
  | whereClause _ body => Yields arena bindings body before value after

/-- A sequence of one expression has its value. -/
theorem evaluates_last_iff :
    Evaluates arena bindings scope (.sequence [id]) before value after ↔
      Yields arena bindings id before value after := by
  constructor
  · intro h
    cases h with
    | last he => exact he
    | front _ hs => cases hs
  · exact .last

/-- A longer sequence has the value of its rest. -/
theorem evaluates_front_iff {ids : List NodeId} (hn : ids ≠ []) :
    Evaluates arena bindings scope (.sequence (id :: ids)) before value after ↔
      ∃ between, Performs arena bindings id before between ∧
        Evaluates arena bindings scope (.sequence ids) between value after := by
  constructor
  · intro h
    cases h with
    | last => exact absurd rfl hn
    | front he hs => exact ⟨_, ⟨_, he⟩, hs⟩
  · rintro ⟨between, ⟨ignored, he⟩, hs⟩
    exact .front he hs

/-- A loop under a condition does rounds. -/
theorem Evaluates.whileRounds {condition body : NodeId}
    (hk : arena.kind? id = some (.expression (.whileLoop condition body)))
    (h : Evaluates arena bindings scope (.expression id) before value after) :
    value = 0 ∧
      Rounds (Decides arena bindings condition) (Performs arena bindings body) before after := by
  generalize hphrase : Phrase.expression id = phrase at h
  induction h with
  | whileDone hk' hc =>
    cases hphrase
    cases hk.symm.trans hk'
    exact ⟨rfl, .done ⟨0, hc, rfl⟩⟩
  | whileMore hk' hc hn hb _ _ _ ih =>
    cases hphrase
    cases hk.symm.trans hk'
    exact ⟨rfl, .more ⟨_, hc, by simp [hn]⟩ ⟨_, hb⟩ (ih rfl).2⟩
  | last | front | countDone | countMore => cases hphrase
  | integer hk' | logical hk' | name hk' | binary hk' | assign hk' | unary hk' | block hk'
  | chosen hk' | otherwise hk' | skipped hk' | forLoop hk' | whereClause hk' =>
    cases hphrase
    cases hk.symm.trans hk'

/-- Rounds are what such a loop does. -/
theorem Rounds.yields_while {condition body : NodeId}
    (hk : arena.kind? id = some (.expression (.whileLoop condition body)))
    (h : Rounds (Decides arena bindings condition) (Performs arena bindings body) before after) :
    Yields arena bindings id before 0 after := by
  induction h with
  | done ht =>
    obtain ⟨test, hc, htest⟩ := ht
    obtain rfl : test = 0 := by simpa using htest.symm
    exact .whileDone hk hc
  | more ht hr _ ih =>
    obtain ⟨test, hc, htest⟩ := ht
    obtain ⟨ignored, hb⟩ := hr
    exact .whileMore hk hc (by simpa using htest.symm) hb ih

/-- A counting loop does rounds. -/
theorem Evaluates.countRounds {counter high step body : NodeId}
    (hb : bindings.get? counter = some cell.1)
    (h : Evaluates arena bindings scope (.counting counter high step body) before value after) :
    Rounds (Compares arena bindings cell high) (Advances arena bindings cell step body) before
      after := by
  generalize hphrase : Phrase.counting counter high step body = phrase at h
  induction h with
  | @countDone _ _ _ _ found _ _ _ hb' hh hge =>
    cases hphrase
    obtain rfl : found = cell := Cell.unique hb' hb
    exact .done ⟨_, hh, by simp [hge]⟩
  | @countMore _ _ _ _ found _ _ _ _ _ _ _ _ hb' hh hlt hbody hs _ _ _ _ ih =>
    cases hphrase
    obtain rfl : found = cell := Cell.unique hb' hb
    exact .more ⟨_, hh, by simp [hlt]⟩ ⟨_, _, _, ⟨_, hbody⟩, hs, rfl⟩ (ih rfl)
  | integer | logical | name | binary | assign | unary | block | last | front | chosen | otherwise
  | skipped | whileDone | whileMore | forLoop | whereClause => cases hphrase

/-- Rounds are what a counting loop does. -/
theorem Rounds.evaluates_counting {counter high step body : NodeId}
    (hb : bindings.get? counter = some cell.1)
    (h : Rounds (Compares arena bindings cell high) (Advances arena bindings cell step body) before
      after) :
    Evaluates arena bindings scope (.counting counter high step body) before 0 after := by
  induction h with
  | done ht =>
    obtain ⟨bound, hh, hbound⟩ := ht
    exact .countDone hb hh (by simpa using hbound.symm)
  | more ht hr _ ih =>
    obtain ⟨bound, hh, hbound⟩ := ht
    obtain ⟨between, width, stepped, ⟨ignored, hbody⟩, hs, rfl⟩ := hr
    exact .countMore hb hh (by simpa using hbound.symm) hbody hs ih

/-- What an expression evaluates to follows from the rule for its form. -/
theorem Evaluates.means {item : Expression} (hk : arena.kind? id = some (.expression item))
    (h : Yields arena bindings id before value after) :
    item.Means arena bindings id before value after := by
  cases h with
  | integer hk' hn =>
    cases hk.symm.trans hk'
    exact ⟨_, hn, rfl, rfl⟩
  | logical hk' =>
    cases hk.symm.trans hk'
    exact ⟨rfl, rfl⟩
  | name hk' hb =>
    cases hk.symm.trans hk'
    exact ⟨_, hb, rfl, rfl⟩
  | @binary _ _ _ operator _ _ _ _ _ _ hk' hl hr ho =>
    cases hk.symm.trans hk'
    cases operator with
    | assign => cases ho
    | or | and | eq | neq | lt | gt | leq | geq | add | sub | mul | div | mod | index =>
      exact ⟨_, _, _, hl, hr, ho⟩
  | assign hk' ht hb hs =>
    cases hk.symm.trans hk'
    exact ⟨_, _, _, ht, hb, hs, rfl⟩
  | unary hk' ho =>
    cases hk.symm.trans hk'
    exact ⟨_, ho, rfl⟩
  | block hk' hs =>
    cases hk.symm.trans hk'
    exact hs
  | chosen hk' hc hn ht =>
    cases hk.symm.trans hk'
    exact ⟨rfl, true, _, ⟨_, hc, by simp [hn]⟩, _, ht⟩
  | otherwise hk' hc he =>
    cases hk.symm.trans hk'
    exact ⟨rfl, false, _, ⟨_, hc, rfl⟩, _, he⟩
  | skipped hk' hc =>
    cases hk.symm.trans hk'
    exact ⟨rfl, false, _, ⟨_, hc, rfl⟩, rfl⟩
  | whileDone hk' hc =>
    cases hk.symm.trans hk'
    exact Evaluates.whileRounds hk (.whileDone hk hc)
  | whileMore hk' hc hn hb hw =>
    cases hk.symm.trans hk'
    exact Evaluates.whileRounds hk (.whileMore hk hc hn hb hw)
  | forLoop hk' hn hb hl hc =>
    cases hk.symm.trans hk'
    exact ⟨rfl, _, _, hn, hb, _, ⟨_, _, hl, rfl⟩, hc.countRounds hb⟩
  | whereClause hk' hb =>
    cases hk.symm.trans hk'
    exact hb

/-- The rule for the form of an expression evaluates it. -/
theorem Expression.Means.yields {item : Expression}
    (hk : arena.kind? id = some (.expression item))
    (h : item.Means arena bindings id before value after) :
    Yields arena bindings id before value after := by
  cases item with
  | literal text word =>
    cases word with
    | integer =>
      obtain ⟨number, hn, rfl, rfl⟩ := h
      exact .integer hk hn
    | logical =>
      obtain ⟨rfl, rfl⟩ := h
      exact .logical hk
    | string => exact h.elim
  | call => exact h.elim
  | name word =>
    obtain ⟨cell, hb, rfl, rfl⟩ := h
    exact .name hk hb
  | binary operator left right =>
    cases operator with
    | assign =>
      obtain ⟨word, cell, stored, ht, hb, hs, rfl⟩ := h
      exact .assign hk ht hb hs
    | or | and | eq | neq | lt | gt | leq | geq | add | sub | mul | div | mod | index =>
      obtain ⟨first, between, second, hl, hr, ho⟩ := h
      exact .binary hk hl hr ho
  | unary operator operand =>
    obtain ⟨word, ho, rfl⟩ := h
    exact .unary hk ho
  | block ids => exact .block hk h
  | conditional condition thenBranch elseBranch =>
    obtain ⟨rfl, holds, between, ⟨test, hc, htest⟩, hbranch⟩ := h
    cases holds with
    | true =>
      obtain ⟨ignored, ht⟩ := hbranch
      exact .chosen hk hc (by simpa using htest.symm) ht
    | false =>
      obtain rfl : test = 0 := by simpa using htest.symm
      cases elseBranch with
      | some elseBranch =>
        obtain ⟨ignored, he⟩ := hbranch
        exact .otherwise hk hc he
      | none =>
        cases hbranch
        exact .skipped hk hc
  | whileLoop condition body =>
    obtain ⟨rfl, hrounds⟩ := h
    exact hrounds.yields_while hk
  | forLoop counter low high step body =>
    obtain ⟨rfl, word, cell, hn, hb, _, ⟨start, between, hl, rfl⟩, hrounds⟩ := h
    exact .forLoop hk hn hb hl (hrounds.evaluates_counting hb)
  | whereClause inner body => exact .whereClause hk h

/-- An expression evaluates by the rule for its form. -/
theorem yields_iff {item : Expression} (hk : arena.kind? id = some (.expression item)) :
    Yields arena bindings id before value after ↔
      item.Means arena bindings id before value after :=
  ⟨fun h => h.means hk, fun h => h.yields hk⟩

end Pins
