import Pins.Syntax.Arena

/-!
# Syntax trees

The tree that an arena keeps below a node, told without the numbers of nodes. A tree has the form
of its node and the trees below it in source order; `Arena.Holds` says which trees an arena has
below a list of nodes. An arena has at most one tree below a node (`Holds.unique`).
-/

namespace Pins

/-- What a node stands for, apart from the nodes below it. -/
inductive NodeForm where
  | definitions
  | function (name : String)
  | var (name : String)
  | type (name : String)
  | parameter (name : String)
  | call (callee : String)
  | binary (operator : BinaryOperator)
  | block
  | forLoop
  | whileLoop
  | name (text : String)
  | conditional
  | literal (value : String) (atom : Atom)
  | unary (operator : UnaryOperator)
  | whereClause
  | atomType (word : Atom)
  | arrayType (size : Nat)
  | namedType (text : String)
deriving DecidableEq, Repr

namespace NodeKind

/-- The form of a node. -/
def form : NodeKind → NodeForm
  | definitions _ => .definitions
  | definition (.function name ..) => .function name
  | definition (.var name _) => .var name
  | definition (.type name _) => .type name
  | definition (.parameter name _) => .parameter name
  | expression (.call callee _) => .call callee
  | expression (.binary operator ..) => .binary operator
  | expression (.block _) => .block
  | expression (.forLoop ..) => .forLoop
  | expression (.whileLoop ..) => .whileLoop
  | expression (.name text) => .name text
  | expression (.conditional ..) => .conditional
  | expression (.literal value atom) => .literal value atom
  | expression (.unary operator _) => .unary operator
  | expression (.whereClause ..) => .whereClause
  | type (.atom word) => .atomType word
  | type (.array size _) => .arrayType size
  | type (.name text) => .namedType text

end NodeKind

/-- A tree of forms. -/
inductive SyntaxTree where
  | node (form : NodeForm) (below : List SyntaxTree)

namespace Arena

variable {arena grown : Arena} {id : NodeId} {ids others : List NodeId} {tree : SyntaxTree}
  {trees following : List SyntaxTree}

/-- The trees that an arena has below nodes, one for each node. -/
inductive Holds (arena : Arena) : List NodeId → List SyntaxTree → Prop where
  | nil : Holds arena [] []
  | cons {id : NodeId} {ids : List NodeId} {kind : NodeKind} {below trees : List SyntaxTree}
      (hk : arena.kind? id = some kind) (hbelow : Holds arena kind.children below)
      (hrest : Holds arena ids trees) :
      Holds arena (id :: ids) (.node kind.form below :: trees)

/-- The program below the root of an arena. -/
def HoldsProgram (arena : Arena) (program : SyntaxTree) : Prop :=
  ∃ root, arena.root = some root ∧ arena.Holds [root] [program]

namespace Holds

/-- There is one tree below a node. -/
theorem unique (h : arena.Holds ids trees) (h' : arena.Holds ids following) :
    trees = following := by
  induction h generalizing following with
  | nil => cases h'; rfl
  | cons hk _ _ ihbelow ihrest =>
    cases h' with
    | cons hk' hbelow' hrest' =>
      cases hk.symm.trans hk'
      rw [ihbelow hbelow', ihrest hrest']

/-- Trees stay where they are when nodes are added. -/
theorem of_kept (h : arena.Holds ids trees)
    (hkept : ∀ id kind, arena.kind? id = some kind → grown.kind? id = some kind) :
    grown.Holds ids trees := by
  induction h with
  | nil => exact .nil
  | cons hk _ _ ihbelow ihrest => exact .cons (hkept _ _ hk) ihbelow ihrest

/-- Trees below some nodes and below others are trees below all of them. -/
theorem append (h : arena.Holds ids trees) (h' : arena.Holds others following) :
    arena.Holds (ids ++ others) (trees ++ following) := by
  induction h with
  | nil => exact h'
  | cons hk hbelow _ _ ihrest => exact .cons hk hbelow ihrest

/-- Two nodes may be told in either order. -/
theorem swap {other : NodeId} {next : SyntaxTree} (h : arena.Holds [id, other] [tree, next]) :
    arena.Holds [other, id] [next, tree] := by
  cases h with
  | cons hk hbelow hrest =>
    cases hrest with
    | cons hk' hbelow' hend => exact .cons hk' hbelow' (.cons hk hbelow .nil)

end Holds

/-- The program below the root of an arena is one tree. -/
theorem HoldsProgram.unique {program other : SyntaxTree} (h : arena.HoldsProgram program)
    (h' : arena.HoldsProgram other) : program = other := by
  obtain ⟨root, hroot, hp⟩ := h
  obtain ⟨root', hroot', hp'⟩ := h'
  cases hroot.symm.trans hroot'
  exact (List.cons.inj (hp.unique hp')).1

end Arena

end Pins
