import Pins.Proofs.Enclosing
import Pins.Proofs.ExactParse

/-!
# The forms of a program

The tree of a program is made of the forms of its nodes. The forms in the tree that an arena holds
are those of the nodes of the arena (`Arena.IsTree.mem_forms_iff`). So what is shown of the forms in
a tree by the rules of the grammar that derive it is shown of the nodes of every program that was
read (`exists_forms_of_parse`).
-/

namespace Pins

namespace SyntaxTree

mutual

/-- The forms of all nodes of a tree. -/
def forms : SyntaxTree → List NodeForm
  | node form below => form :: formsOf below

/-- The forms of all nodes of trees. -/
def formsOf : List SyntaxTree → List NodeForm
  | [] => []
  | tree :: rest => tree.forms ++ formsOf rest

end

@[simp] theorem formsOf_eq (trees : List SyntaxTree) : formsOf trees = trees.flatMap forms := by
  induction trees with
  | nil => rfl
  | cons tree rest ih => rw [formsOf, ih, List.flatMap_cons]

/-- What holds of all forms of a tree holds of its node and below it. -/
theorem forall_forms_node {good : NodeForm → Prop} {form : NodeForm} {below : List SyntaxTree} :
    (∀ found ∈ (node form below).forms, good found) ↔
      good form ∧ ∀ tree ∈ below, ∀ found ∈ tree.forms, good found := by
  simp only [forms, formsOf_eq, List.forall_mem_cons, List.forall_mem_flatMap]

end SyntaxTree

namespace Arena

variable {arena : Arena} {id : NodeId} {ids : List NodeId} {form : NodeForm}
  {trees : List SyntaxTree} {program : SyntaxTree}

/-- The form of a node of a tree is that of a node of the arena that has the tree. -/
theorem Holds.exists_kind (h : arena.Holds ids trees) : ∀ tree ∈ trees, ∀ form ∈ tree.forms,
    ∃ id kind, arena.kind? id = some kind ∧ kind.form = form := by
  induction h with
  | nil => simp
  | cons hk _ _ ihbelow ihrest =>
    refine List.forall_mem_cons.mpr ⟨?_, ihrest⟩
    exact SyntaxTree.forall_forms_node.mpr ⟨⟨_, _, hk, rfl⟩, ihbelow⟩

/-- Below each of some nodes stands one of the trees. -/
theorem Holds.exists_tree (h : arena.Holds ids trees) (hm : id ∈ ids) :
    ∃ kind below, arena.kind? id = some kind ∧ arena.Holds kind.children below ∧
      .node kind.form below ∈ trees := by
  induction h with
  | nil => cases hm
  | cons hk hbelow _ _ ih =>
    rcases List.mem_cons.mp hm with rfl | hrest
    · exact ⟨_, _, hk, hbelow, List.mem_cons_self⟩
    · obtain ⟨kind, below, hkind, hchildren, hmem⟩ := ih hrest
      exact ⟨kind, below, hkind, hchildren, List.mem_cons_of_mem _ hmem⟩

/-- The tree below a node that stands anywhere in a program is part of that of the program. -/
theorem Encloses.forms_subset {outer : Option NodeId} (hp : arena.HoldsProgram program)
    (h : arena.Encloses outer id) : ∃ kind below, arena.kind? id = some kind ∧
      arena.Holds kind.children below ∧
      (SyntaxTree.node kind.form below).forms ⊆ program.forms := by
  induction h with
  | root hr =>
    obtain ⟨root, hroot, hh⟩ := hp
    cases hr.symm.trans hroot
    obtain ⟨kind, below, hk, hbelow, hm⟩ := hh.exists_tree List.mem_cons_self
    obtain rfl := List.mem_singleton.mp hm
    exact ⟨kind, below, hk, hbelow, List.Subset.refl _⟩
  | child _ hk hm ih =>
    obtain ⟨kind, below, hk', hbelow, hsub⟩ := ih
    cases hk.symm.trans hk'
    obtain ⟨kind', below', hkind, hchildren, htree⟩ := hbelow.exists_tree hm
    refine ⟨kind', below', hkind, hchildren, fun form hform => hsub ?_⟩
    rw [SyntaxTree.forms, SyntaxTree.formsOf_eq]
    exact List.mem_cons_of_mem _ (List.mem_flatMap.mpr ⟨_, htree, hform⟩)

/-- The forms in the tree of a program are those of the nodes of its arena. -/
theorem IsTree.mem_forms_iff (ht : arena.IsTree) (hp : arena.HoldsProgram program) :
    form ∈ program.forms ↔ ∃ id kind, arena.kind? id = some kind ∧ kind.form = form := by
  constructor
  · obtain ⟨root, _, hh⟩ := hp
    exact hh.exists_kind program List.mem_cons_self form
  · rintro ⟨id, kind, hk, rfl⟩
    obtain ⟨outer, he⟩ := ht.exists_encloses hk
    obtain ⟨kind', below, hk', _, hsub⟩ := he.forms_subset hp
    cases hk.symm.trans hk'
    exact hsub (by rw [SyntaxTree.forms]; exact List.mem_cons_self)

end Arena

/-- A program that was read is derived, and the forms in the tree of the derivation are those of its
nodes. -/
theorem exists_forms_of_parse {file : String} {tokens : List Token} {arena : Arena}
    (hl : Lexed tokens) (h : parse file tokens = .ok arena) :
    ∃ program, Symbol.source.Derives tokens [program] ∧
      ∀ form, form ∈ program.forms ↔ ∃ id kind, arena.kind? id = some kind ∧ kind.form = form := by
  obtain ⟨program, hd, hp⟩ := exists_derives_of_parse hl h
  exact ⟨program, hd, fun form => (parse_isTree h).mem_forms_iff hp⟩

end Pins
