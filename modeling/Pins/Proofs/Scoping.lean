import Pins.Builtin
import Pins.Proofs.Enclosing

/-!
# Lexical scoping

Which definition a name means follows from where the name stands. Around a node there are lists of
definitions: those of the where clauses around it, the parameters of the functions in whose bodies
it stands, and the definitions of the top level (`Arena.Sees`). A name means its definition in the
innermost list that has one, whatever kind of definition that is (`Arena.Means`), and a reference
resolves if this definition is of a kind that it may mean (`Arena.Resolves`). A program is
`WellScoped` if no list defines a name twice and every reference resolves.

Nothing here knows in which order the tree is walked. The lists around a node are the same however
it is reached (`Arena.Sees.unique`), and all of them stand in the functions around the node
(`Arena.Sees.reaches`).
-/

namespace Pins

namespace NodeKind

/-- The name that a node refers to, and the kinds of definition that it may mean. A call of a
built-in routine refers to nothing. -/
def reference? : NodeKind → Option (String × List DefinitionKind)
  | expression (.name word) => some (word, [.var, .parameter])
  | expression (.call callee _) =>
    if Builtin.isRoutine callee then none else some (callee, [.function])
  | type (.name word) => some (word, [.type])
  | _ => none

/-- The definitions that share a scope: those of a definition list, or the parameters of a
function. -/
def declared? : NodeKind → Option (List NodeId)
  | definitions members => some members
  | definition (.function _ parameters _ _) => some parameters
  | _ => none

end NodeKind

namespace Arena

variable {arena : Arena} {id below other target : NodeId} {kind : NodeKind} {name : String}
  {list : List NodeId} {lists lists' : List (List NodeId)}

/-- A node is a definition of a name. -/
def Names (arena : Arena) (id : NodeId) (name : String) : Prop :=
  ∃ definition, arena.definition? id = some definition ∧ definition.name = name

/-- No two definitions of a list have one name. -/
def Distinct (arena : Arena) (list : List NodeId) : Prop :=
  list.Pairwise fun id other => ∀ name, arena.Names id name → ¬arena.Names other name

/-- The list of definitions, if there is one, that is around a node but not around the node directly
above it. A function shows its parameters to its body only; a where clause shows its definitions to
its expression and to the definitions themselves. -/
def opened (arena : Arena) (kind : NodeKind) (below : NodeId) : List (List NodeId) :=
  match kind with
  | .definition (.function _ parameters _ body) => if below = body then [parameters] else []
  | .expression (.whereClause inner _) =>
    match arena.kind? inner with
    | some (.definitions members) => [members]
    | _ => []
  | _ => []

/-- The lists of definitions around a node, from the inside to the outside. -/
inductive Sees (arena : Arena) : List (List NodeId) → NodeId → Prop where
  | root {root : NodeId} {members : List NodeId} (hr : arena.root = some root)
      (hk : arena.kind? root = some (.definitions members)) : Sees arena [members] root
  | child {lists : List (List NodeId)} {id below : NodeId} {kind : NodeKind}
      (h : Sees arena lists id) (hk : arena.kind? id = some kind) (hm : below ∈ kind.children) :
      Sees arena (arena.opened kind below ++ lists) below

/-- The definition that a name means among lists of definitions: the one in the innermost list that
has one. -/
inductive Means (arena : Arena) (name : String) : List (List NodeId) → NodeId → Prop where
  | here {list : List NodeId} {lists : List (List NodeId)} {id : NodeId} (hm : id ∈ list)
      (hn : arena.Names id name) : Means arena name (list :: lists) id
  | outside {list : List NodeId} {lists : List (List NodeId)} {id : NodeId}
      (hn : ∀ other ∈ list, ¬arena.Names other name) (h : Means arena name lists id) :
      Means arena name (list :: lists) id

/-- A node refers to a definition: its name means the definition where the node stands, and the
definition is of a kind that the node may mean. -/
def Resolves (arena : Arena) (id target : NodeId) : Prop :=
  ∃ kind name kinds lists definition, arena.kind? id = some kind ∧
    kind.reference? = some (name, kinds) ∧ arena.Sees lists id ∧ arena.Means name lists target ∧
    arena.definition? target = some definition ∧ definition.kind ∈ kinds

/-- No list of definitions defines a name twice, and every reference resolves. -/
structure WellScoped (arena : Arena) : Prop where
  /-- Definitions that share a scope have different names. -/
  distinct : ∀ {id kind list}, arena.kind? id = some kind → kind.declared? = some list →
    arena.Distinct list
  /-- Every reference means a definition of a kind that it may mean. -/
  resolves : ∀ {id kind}, arena.kind? id = some kind → kind.reference?.isSome = true →
    ∃ target, arena.Resolves id target

/-- A list that a node opens stands in the function in which what is directly below the node
stands. -/
theorem Encloses.ofOpened {outer : Option NodeId} {member : NodeId} (h : arena.Encloses outer id)
    (hk : arena.kind? id = some kind) (hl : list ∈ arena.opened kind below)
    (hm : member ∈ list) : arena.Encloses (kind.scope outer id) member := by
  cases kind with
  | definitions | type => cases hl
  | definition item =>
    cases item with
    | var | type | parameter => cases hl
    | function name parameters result body =>
      simp only [opened] at hl
      split at hl
      · obtain rfl := List.mem_singleton.mp hl
        exact h.child hk (List.mem_append_left _ hm)
      · cases hl
  | expression item =>
    cases item with
    | whereClause inner body =>
      simp only [opened] at hl
      split at hl
      · next members hd =>
        obtain rfl := List.mem_singleton.mp hl
        have hinner := h.ofExpression hk
          (by simp [Expression.children] : inner ∈ (Expression.whereClause inner body).children)
        exact hinner.ofOther hd rfl hm
      · cases hl
    | call | binary | block | forLoop | whileLoop | name | conditional | literal | unary => cases hl

namespace Sees

/-- Where no list is opened, a node sees what the node above it sees. -/
theorem plain (h : arena.Sees lists id) (hk : arena.kind? id = some kind)
    (ho : arena.opened kind below = []) (hm : below ∈ kind.children) : arena.Sees lists below := by
  have hbelow := h.child hk hm
  rwa [ho, List.nil_append] at hbelow

/-- The body of a function sees its parameters. -/
theorem body {parameters : List NodeId} {result body : NodeId} (h : arena.Sees lists id)
    (hk : arena.kind? id = some (.definition (.function name parameters result body))) :
    arena.Sees (parameters :: lists) body := by
  have hbody := h.child hk (by simp [NodeKind.children, Definition.children] :
    body ∈ (NodeKind.definition (.function name parameters result body)).children)
  simpa [opened] using hbody

/-- Both parts of a where clause see its definitions. -/
theorem whereClause {inner body : NodeId} {members : List NodeId} (h : arena.Sees lists id)
    (hk : arena.kind? id = some (.expression (.whereClause inner body)))
    (hd : arena.kind? inner = some (.definitions members)) :
    arena.Sees (members :: lists) inner ∧ arena.Sees (members :: lists) body := by
  have hpart : ∀ part ∈ (NodeKind.expression (.whereClause inner body)).children,
      arena.Sees (members :: lists) part := by
    intro part hm
    have hchild := h.child hk hm
    simpa [opened, hd] using hchild
  exact ⟨hpart inner (by simp [NodeKind.children, Expression.children]),
    hpart body (by simp [NodeKind.children, Expression.children])⟩

/-- The lists around a node follow from the node. -/
theorem unique (ht : arena.IsTree) (h : arena.Sees lists id) (h' : arena.Sees lists' id) :
    lists = lists' := by
  induction h generalizing lists' with
  | root hr hk =>
    cases h' with
    | root hr' hk' =>
      cases hk.symm.trans hk'
      rfl
    | child _ hk' hm' => exact (Encloses.not_root ht hr hk' hm').elim
  | @child lists id below kind _ hk hm ih =>
    cases h' with
    | root hr' hk' => exact (Encloses.not_root ht hr' hk hm).elim
    | child h' hk' hm' =>
      obtain rfl := ht.parent_unique hk hm hk' hm'
      cases hk.symm.trans hk'
      rw [ih h']

/-- Every definition around a node stands in a function around the node, or outside all
functions. -/
theorem reaches (h : arena.Sees lists id) :
    ∃ outer, arena.Encloses outer id ∧ ∀ list ∈ lists, ∀ member ∈ list,
      arena.Reaches outer member := by
  induction h with
  | @root root members hr hk =>
    have he : arena.Encloses none root := .root hr
    refine ⟨none, he, fun list hl member hm => ?_⟩
    obtain rfl := List.mem_singleton.mp hl
    exact ⟨none, he.ofOther hk rfl hm, .refl none⟩
  | @child lists id below kind h hk hm ih =>
    obtain ⟨outer, he, hall⟩ := ih
    have hbelow := he.child hk hm
    have hinward : arena.Around outer (kind.scope outer id) := by
      unfold NodeKind.scope
      split
      · exact .step he (.refl outer)
      · exact .refl outer
    refine ⟨_, hbelow, fun list hl member hmember => ?_⟩
    rcases List.mem_append.mp hl with hl | hl
    · exact ⟨_, he.ofOpened hk hl hmember, .refl _⟩
    · exact (hall list hl member hmember).mono hinward

end Sees

namespace Means

/-- What a name means is a definition of it in one of the lists. -/
theorem exists_mem (h : arena.Means name lists target) :
    (∃ list ∈ lists, target ∈ list) ∧ arena.Names target name := by
  induction h with
  | @here list lists id hm hn => exact ⟨⟨list, List.mem_cons_self, hm⟩, hn⟩
  | outside _ _ ih =>
    obtain ⟨⟨list, hl, hm⟩, hn⟩ := ih
    exact ⟨⟨list, List.mem_cons_of_mem _ hl, hm⟩, hn⟩

end Means

/-- What a node refers to stands in a function around the node, or outside all functions. -/
theorem Resolves.reaches (h : arena.Resolves id target) :
    ∃ outer, arena.Encloses outer id ∧ arena.Reaches outer target := by
  obtain ⟨_, _, _, lists, _, _, _, hsees, hmeans, _, _⟩ := h
  obtain ⟨outer, he, hall⟩ := hsees.reaches
  obtain ⟨⟨list, hl, hm⟩, _⟩ := hmeans.exists_mem
  exact ⟨outer, he, hall list hl target hm⟩

end Arena

end Pins
