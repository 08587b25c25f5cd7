import Pins.Proofs.Derivation
import Pins.Syntax.Grammar

/-!
# How operators bind

The levels of the grammar are what the binding powers of the parser stand for: the mark of an
operator of a level continues an expression with the power of that level, and nothing else does but
an index.

The levels show in the trees that the grammar derives. The right operand of an operator has a
tighter operator at its root, if any, and the left operand none that is looser, so operators of one
level are read from the left, and a comparison has no comparison for an operand. An operator before
an operand has no operator between two operands at the root of its operand, and an index not even
an operator before one. A where clause is no operand of an operator and is for the whole expression
in front of it. `SyntaxTree.Ordered` says so of every node of a tree.
-/

namespace Pins

namespace TokenKind

/-- How tightly a kind of token holds an operand that stands before it, as a continuation. -/
def hold (kind : TokenKind) : Nat :=
  (Grammar.pins.continuation? kind).elim 0 fun next => next.power.rank

variable {kind : TokenKind} {next : Continuation}

theorem hold_of_continuation (h : Grammar.pins.continuation? kind = some next) :
    kind.hold = next.power.rank := by
  simp [hold, h]

/-- Nothing holds tighter than an index. -/
theorem hold_le (kind : TokenKind) : kind.hold ≤ 7 := by
  cases kind <;> decide

/-- The comparisons are what holds as tightly as a comparison. -/
theorem hold_eq_three_iff (kind : TokenKind) : kind.hold = 3 ↔ kind.isRelational = true := by
  cases kind <;> decide

end TokenKind

namespace Precedence

/-- How tightly the operators of a level bind. -/
def power : Precedence → BindingPower
  | or => .or
  | and => .and
  | comparison => .relational
  | additive => .additive
  | multiplicative => .multiplicative
  | prefixed => .unary
  | postfixed => .subscript

/-- The place of a level in the order. -/
def rank (level : Precedence) : Nat := level.power.rank

/-- An operation of a level is read as a whole where operators are read that bind tighter than
some power below its floor. -/
def floor : Precedence → Nat
  | prefixed => 7
  | level => level.rank

/-- A token behind an operation of a level does not belong to it if it holds at most as tightly as
its ceiling. -/
def ceiling : Precedence → Nat
  | comparison => 2
  | level => level.rank

variable {level : Precedence} {kind : TokenKind} {operator : BinaryOperator}

/-- The mark of an operator of a level continues an expression. -/
theorem continuation_of_operator (h : level.operator? kind = some operator) :
    Grammar.pins.continuation? kind = some ⟨.binary, level.power⟩ ∧
      BinaryOperator.ofKind? kind = some operator := by
  cases level <;> cases kind <;> simp_all [operator?, Grammar.pins, power, BinaryOperator.ofKind?]

/-- What continues an expression with an operand is the mark of an operator of a level. -/
theorem exists_operator {bound : BindingPower}
    (h : Grammar.pins.continuation? kind = some ⟨.binary, bound⟩) :
    ∃ level operator, Precedence.operator? level kind = some operator ∧ level.power = bound := by
  cases kind <;> cases h <;> first
    | exact ⟨.or, _, rfl, rfl⟩
    | exact ⟨.and, _, rfl, rfl⟩
    | exact ⟨.comparison, _, rfl, rfl⟩
    | exact ⟨.additive, _, rfl, rfl⟩
    | exact ⟨.multiplicative, _, rfl, rfl⟩

/-- The operators that compare are those of one level. -/
theorem isComparison_iff (h : level.operator? kind = some operator) :
    operator.isComparison = true ↔ level = .comparison := by
  cases level <;> cases kind <;> cases h <;> decide

/-- The operands of an operator are of the next level. -/
theorem exists_tighter (h : level.operator? kind = some operator) :
    ∃ inner, level.tighter? = some inner ∧ inner.rank = level.rank + 1 ∧ inner.rank ≤ 6 := by
  cases level <;> first | exact ⟨_, rfl, rfl, by decide⟩ | cases h

theorem ceiling_le (level : Precedence) : level.ceiling ≤ level.rank := by
  cases level <;> decide

theorem ceiling_eq (h : level ≠ .comparison) : level.ceiling = level.rank := by
  cases level <;> first | rfl | exact absurd rfl h

theorem floor_eq (h : level.rank ≤ 5) : level.floor = level.rank := by
  cases level <;> first | rfl | exact absurd h (by decide)

/-- What is read as a whole above a power below 6 is of a level above it. -/
theorem lt_rank_of_lt_floor {bound : Nat} (h : bound < level.floor) (hb : bound < 6) :
    bound < level.rank := by
  cases level <;> first | exact h | exact hb

end Precedence

/-- An operation of a tighter level is one of a looser level. -/
theorem Symbol.Derives.loosen {tokens : List Token} {trees : List SyntaxTree}
    {level inner : Precedence} (h : (Symbol.operation inner).Derives tokens trees)
    (hle : level.rank ≤ inner.rank) : (Symbol.operation level).Derives tokens trees := by
  obtain ⟨steps, hsteps⟩ := Nat.exists_eq_add_of_le hle
  induction steps generalizing level with
  | zero =>
    have he : level = inner := by cases level <;> cases inner <;> first | rfl | cases hsteps
    exact he ▸ h
  | succ steps ih =>
    have hnext : ∃ next, level.tighter? = some next ∧ next.rank = level.rank + 1 := by
      have hsmall : level.rank < 7 := by
        have : inner.rank ≤ 7 := by cases inner <;> decide
        omega
      cases level <;> first | exact ⟨_, rfl, rfl⟩ | exact absurd hsmall (by decide)
    obtain ⟨next, htighter, hrank⟩ := hnext
    exact .tighter htighter (ih (by omega) (by omega))

/-- The level of an operator between two operands. -/
def BinaryOperator.level? : BinaryOperator → Option Precedence
  | .or => some .or
  | .and => some .and
  | .eq | .neq | .lt | .gt | .leq | .geq => some .comparison
  | .add | .sub => some .additive
  | .mul | .div | .mod => some .multiplicative
  | .index | .assign => none

namespace SyntaxTree

/-- How tightly the root of a tree holds together. A where clause does not at all, and what ends
with its own mark cannot be torn apart. -/
def rank : SyntaxTree → Nat
  | node .whereClause _ => 0
  | node (.binary operator) _ => operator.level?.elim 7 Precedence.rank
  | node (.unary _) _ => Precedence.prefixed.rank
  | node _ _ => 7

/-- The trees below a node of a form are as the levels ask for. -/
def Binds : NodeForm → List SyntaxTree → Prop
  | .binary .index, [array, _] => 7 ≤ array.rank
  | .binary operator, [left, right] => ∀ level, operator.level? = some level →
    level.rank ≤ left.rank ∧ level.rank < right.rank ∧
      (level = .comparison → level.rank < left.rank)
  | .unary _, [operand] => Precedence.prefixed.rank ≤ operand.rank
  | .whereClause, [_, expression] => 0 < expression.rank
  | _, _ => True

/-- Everywhere in a tree, the trees below a node are as the levels ask for. -/
inductive Ordered : SyntaxTree → Prop where
  | node {form : NodeForm} {below : List SyntaxTree} (hroot : Binds form below)
      (hbelow : ∀ tree ∈ below, Ordered tree) : Ordered (node form below)

end SyntaxTree

/-- An operator is of the level at which its mark is one. -/
theorem Precedence.level_of_operator {level : Precedence} {kind : TokenKind}
    {operator : BinaryOperator} (h : level.operator? kind = some operator) :
    operator.level? = some level := by
  cases level <;> cases kind <;> cases h <;> rfl

namespace Symbol

variable {symbol : Symbol} {level : Precedence} {tokens : List Token} {trees : List SyntaxTree}
  {tree : SyntaxTree} {operator : BinaryOperator}

/-- The least rank that a symbol gives to its trees. -/
def rank : Symbol → Nat
  | .operation level => level.rank
  | .atom => 7
  | _ => 0

/-- The root of an operation holds at least as tightly as its level says. -/
theorem Derives.rank_le (h : symbol.Derives tokens trees) :
    ∀ tree ∈ trees, symbol.rank ≤ tree.rank := by
  induction h with
  | @tighter level inner _ _ hinner _ ih =>
    intro tree ht
    have hle : level.rank ≤ inner.rank := by cases level <;> cases hinner <;> decide
    exact Nat.le_trans hle (ih tree ht)
  | chained _ hmark =>
    intro tree ht
    rw [List.mem_singleton.mp ht]
    simp [rank, SyntaxTree.rank, Precedence.level_of_operator hmark]
  | comparison hmark =>
    intro tree ht
    rw [List.mem_singleton.mp ht]
    simp [rank, SyntaxTree.rank, Precedence.level_of_operator hmark]
  | operand _ ih => exact ih
  | prefixed | index | integer | logical | string | name | call | block | assignment
  | conditional | choice | whileLoop | forLoop =>
    intro tree ht
    rw [List.mem_singleton.mp ht]
    exact Nat.le_refl _
  | _ => exact fun tree _ => Nat.zero_le _

/-- The root of one tree of an operation. -/
theorem Derives.rank_le_one (h : symbol.Derives tokens [tree]) : symbol.rank ≤ tree.rank :=
  h.rank_le tree (List.mem_singleton.mpr rfl)

/-- An operator of a level binds operands that hold together tightly enough. -/
theorem binds_of_level {left right : SyntaxTree} (h : operator.level? = some level)
    (hleft : level.rank ≤ left.rank) (hright : level.rank < right.rank)
    (hcomparison : level = .comparison → level.rank < left.rank) :
    SyntaxTree.Binds (.binary operator) [left, right] := by
  have hbinds : ∀ other, operator.level? = some other → other.rank ≤ left.rank ∧
      other.rank < right.rank ∧ (other = .comparison → other.rank < left.rank) := by
    intro other ho
    cases h.symm.trans ho
    exact ⟨hleft, hright, hcomparison⟩
  cases operator with
  | index => cases h
  | _ => exact hbinds

/-- Every tree of the grammar is ordered. -/
theorem Derives.ordered (h : symbol.Derives tokens trees) : ∀ tree ∈ trees, tree.Ordered := by
  have hnode : ∀ {form : NodeForm} {below : List SyntaxTree}, SyntaxTree.Binds form below →
      (∀ tree ∈ below, tree.Ordered) → ∀ tree ∈ [SyntaxTree.node form below], tree.Ordered := by
    intro form below hroot hbelow tree ht
    rw [List.mem_singleton.mp ht]
    exact .node hroot hbelow
  induction h with
  | absent => simp
  | present _ ih | last _ ih | operation _ ih | tighter _ _ ih | operand _ ih => exact ih
  | more _ _ _ ih ihothers => exact List.forall_mem_append.mpr ⟨ih, ihothers⟩
  | namedType | atomType | integer | logical | string | name => exact hnode trivial (by simp)
  | arrayType _ _ _ _ ih => exact hnode trivial ih
  | parameter _ _ ih | typeDefinition _ _ ih | varDefinition _ _ ih | call _ _ ih | block _ _ ih
  | program _ _ ih => exact hnode trivial ih
  | @whereClause _ _ _ _ _ _ members _ hoperation _ ih ihdefinitions =>
    have hinner : SyntaxTree.Binds .definitions members := trivial
    have hor : 0 < Precedence.or.rank := by decide
    refine hnode (Nat.lt_of_lt_of_le hor hoperation.rank_le_one) ?_
    exact List.forall_mem_append.mpr ⟨hnode hinner ihdefinitions, ih⟩
  | @chained level inner operator _ _ _ _ _ hchains hmark hinner hleft hright ihleft ihright =>
    have hlt : level.rank < inner.rank := by
      cases level <;> cases hinner <;> decide
    have hroot := binds_of_level (Precedence.level_of_operator hmark) hleft.rank_le_one
      (Nat.lt_of_lt_of_le hlt hright.rank_le_one) (fun he => absurd he hchains)
    exact hnode hroot (List.forall_mem_append.mpr ⟨ihleft, ihright⟩)
  | comparison hmark hleft hright ihleft ihright =>
    have hlt : Precedence.comparison.rank < Precedence.additive.rank := by decide
    have hfirst := Nat.lt_of_lt_of_le hlt hleft.rank_le_one
    have hroot := binds_of_level (Precedence.level_of_operator hmark) (Nat.le_of_lt hfirst)
      (Nat.lt_of_lt_of_le hlt hright.rank_le_one) (fun _ => hfirst)
    exact hnode hroot (List.forall_mem_append.mpr ⟨ihleft, ihright⟩)
  | prefixed _ h ih => exact hnode h.rank_le_one ih
  | index _ harray _ iharray ihindex =>
    exact hnode harray.rank_le_one (List.forall_mem_append.mpr ⟨iharray, ihindex⟩)
  | assignment _ _ _ ihleft ihright =>
    refine hnode ?_ (List.forall_mem_append.mpr ⟨ihleft, ihright⟩)
    intro level hlevel
    cases hlevel
  | conditional _ _ _ ih ih' | whileLoop _ _ _ ih ih' =>
    exact hnode trivial (List.forall_mem_append.mpr ⟨ih, ih'⟩)
  | choice _ _ _ _ ihcondition ihbranch ihother =>
    have hbranches := List.forall_mem_append.mpr ⟨ihbranch, ihother⟩
    exact hnode trivial (List.forall_mem_append.mpr ⟨ihcondition, hbranches⟩)
  | @forLoop _ _ counter _ _ _ _ _ _ _ _ _ _ _ _ _ _ _ _ _ _ ihlow ihhigh ihstep ihbody =>
    have hname : SyntaxTree.Binds (.name counter.value) [] := trivial
    have hcounter := hnode hname (by simp)
    have hbounds := List.forall_mem_append.mpr ⟨hcounter,
      List.forall_mem_append.mpr ⟨ihlow, ihhigh⟩⟩
    have hrest := List.forall_mem_append.mpr ⟨ihstep, ihbody⟩
    exact hnode trivial (List.forall_mem_append.mpr ⟨hbounds, hrest⟩)
  | function _ _ _ _ ihparameters ihresult ihbody =>
    have hrest := List.forall_mem_append.mpr ⟨ihresult, ihbody⟩
    exact hnode trivial (List.forall_mem_append.mpr ⟨ihparameters, hrest⟩)

end Symbol

end Pins
