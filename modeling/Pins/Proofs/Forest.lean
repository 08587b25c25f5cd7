import Pins.Syntax.Arena
import Pins.Text.Number

/-!
# Arenas that hold a tree

A program that was read is a tree, and its nodes stand in the arena in the order in which their
reading ended: every subtree fills an interval of numbers that ends with its root, and the subtrees
below a node fill the interval in front of it, one behind the other. `Arena.Forest` states this for
a list of subtrees, together with what may stand where. Two nodes of a forest are therefore either
in line or in intervals that do not meet, and numbers grow from the leaves to the root.
-/

namespace Pins

/-- Nodes of one number are one node. -/
theorem NodeId.eq_of_index {id other : NodeId} (h : id.index = other.index) : id = other := by
  cases id
  cases other
  simpa using h

/-- What a place below a node is for. -/
inductive Place where
  | definitions
  | definition
  | parameter
  | type
  | expression
  /-- The counter of a loop, which is a name. -/
  | counter
deriving DecidableEq, Repr

/-- The nodes that may stand in a place. -/
def Place.admits : Place → NodeKind → Bool
  | definitions, .definitions _ => true
  | definition, .definition (.parameter ..) => false
  | definition, .definition _ => true
  | parameter, .definition (.parameter ..) => true
  | type, .type _ => true
  | expression, .expression _ => true
  | counter, .expression (.name _) => true
  | _, _ => false

namespace NodeKind

/-- The places below a node and the nodes in them, in the order in which these are read. -/
def places : NodeKind → List (Place × NodeId)
  | definitions members => members.map (.definition, ·)
  | definition (.function _ parameters result body) =>
    parameters.map (.parameter, ·) ++ [(.type, result), (.expression, body)]
  | definition (.var _ written) => [(.type, written)]
  | definition (.type _ written) => [(.type, written)]
  | definition (.parameter _ written) => [(.type, written)]
  | expression (.forLoop counter low high step body) =>
    [(.counter, counter), (.expression, low), (.expression, high), (.expression, step),
      (.expression, body)]
  | expression (.whereClause inner body) => [(.expression, body), (.definitions, inner)]
  | expression item => item.children.map (.expression, ·)
  | type item => item.children.map (.type, ·)

/-- Lists and blocks have members, and an integer literal fits a signed word. -/
def isRegular : NodeKind → Bool
  | definitions members => !members.isEmpty
  | expression (.block expressions) => !expressions.isEmpty
  | expression (.literal value .integer) => (Text.signed? value).isSome
  | _ => true

/-- A node that says what a function takes, or of what type something is. -/
def isSignature : NodeKind → Bool
  | definition (.parameter ..) => true
  | type _ => true
  | _ => false

/-- Whatever is directly below a node stands in one of its places, and the other way round. -/
theorem mem_children_iff (kind : NodeKind) (id : NodeId) :
    id ∈ kind.children ↔ id ∈ kind.places.map Prod.snd := by
  cases kind with
  | definitions members => simp [children, places, Function.comp_def]
  | definition item =>
    cases item <;> simp [children, places, Definition.children, Function.comp_def]
  | expression item =>
    cases item <;> simp [children, places, Expression.children, Function.comp_def, or_comm]
  | type item => simp [children, places, Function.comp_def]

end NodeKind

namespace Arena

variable {arena : Arena} {first middle last : Nat} {id : NodeId} {place : Place}
  {places : List (Place × NodeId)} {kind : NodeKind}

/-- Subtrees that stand in some places and fill the numbers from `first` up to `last`, which is
excluded, one behind the other. -/
inductive Forest (arena : Arena) : Nat → List (Place × NodeId) → Nat → Prop where
  | nil (first : Nat) : Forest arena first [] first
  | cons {first last : Nat} {place : Place} {id : NodeId} {kind : NodeKind}
      {others : List (Place × NodeId)} (hkind : arena.kind? id = some kind)
      (hadmits : place.admits kind = true) (hregular : kind.isRegular = true)
      (below : Forest arena first kind.places id.index)
      (behind : Forest arena (id.index + 1) others last) :
      Forest arena first ((place, id) :: others) last

/-- The subtree of a node that stands in a place; its smallest number is `first`. -/
def Subtree (arena : Arena) (place : Place) (first : Nat) (id : NodeId) : Prop :=
  arena.Forest first [(place, id)] (id.index + 1)

/-- The arena holds one tree, and its root lists the top-level definitions. -/
def IsTree (arena : Arena) : Prop :=
  ∃ root, arena.root = some root ∧ root.index + 1 = arena.size ∧
    arena.Subtree .definitions 0 root

/-- The bound on the depth of a pass is above every number of the arena. -/
theorem size_lt_depthBound (arena : Arena) : arena.size < arena.depthBound :=
  Nat.le_mul_self (arena.size + 1)

/-- A number that stands for something is below the size of the arena. -/
theorem index_lt_size (hk : arena.kind? id = some kind) : id.index < arena.size := by
  rcases Nat.lt_or_ge id.index arena.size with hlt | hge
  · exact hlt
  · simp [kind?, node?, Array.getElem?_eq_none hge] at hk

/-- A number at or behind the size of the arena stands for nothing. -/
theorem kind?_eq_none (h : arena.size ≤ id.index) : arena.kind? id = none := by
  cases hk : arena.kind? id with
  | none => rfl
  | some kind =>
    have hlt := index_lt_size hk
    omega

/-- No subtree fills no number. -/
@[simp] theorem forest_nil_iff : arena.Forest first [] last ↔ first = last := by
  constructor
  · intro h
    cases h
    rfl
  · rintro rfl
    exact .nil first

/-- The first subtree ends with its root, and the others begin behind it. -/
@[simp] theorem forest_cons_iff : arena.Forest first ((place, id) :: places) last ↔
    arena.Subtree place first id ∧ arena.Forest (id.index + 1) places last := by
  constructor
  · rintro (_ | ⟨hkind, hadmits, hregular, below, behind⟩)
    exact ⟨.cons hkind hadmits hregular below (.nil _), behind⟩
  · rintro ⟨_ | ⟨hkind, hadmits, hregular, below, _⟩, behind⟩
    exact .cons hkind hadmits hregular below behind

/-- A forest of two lists of places is cut where the first list ends. -/
@[simp] theorem forest_append_iff {others : List (Place × NodeId)} :
    arena.Forest first (places ++ others) last ↔
      ∃ middle, arena.Forest first places middle ∧ arena.Forest middle others last := by
  induction places generalizing first with
  | nil => simp
  | cons head tail ih =>
    rcases head with ⟨place, id⟩
    simp only [List.cons_append, forest_cons_iff, ih]
    constructor
    · rintro ⟨hs, middle, ht, ho⟩
      exact ⟨middle, ⟨hs, ht⟩, ho⟩
    · rintro ⟨middle, ⟨hs, ht⟩, ho⟩
      exact ⟨hs, middle, ht, ho⟩

/-- A subtree is a node and the forest below it. -/
theorem subtree_iff : arena.Subtree place first id ↔
    ∃ kind, arena.kind? id = some kind ∧ place.admits kind = true ∧ kind.isRegular = true ∧
      arena.Forest first kind.places id.index := by
  constructor
  · rintro (_ | ⟨hkind, hadmits, hregular, below, _⟩)
    exact ⟨_, hkind, hadmits, hregular, below⟩
  · rintro ⟨kind, hkind, hadmits, hregular, below⟩
    exact .cons hkind hadmits hregular below (.nil _)

/-- The numbers of a forest do not run backwards. -/
theorem Forest.le (h : arena.Forest first places last) : first ≤ last := by
  induction h with
  | nil => exact Nat.le_refl _
  | cons _ _ _ _ _ hb ho => omega

/-- A subtree has no smaller number than its first one. -/
theorem Subtree.le (h : arena.Subtree place first id) : first ≤ id.index := by
  obtain ⟨_, _, _, _, below⟩ := subtree_iff.mp h
  exact below.le

/-- Every member of a forest is the root of a subtree inside the forest. -/
theorem Forest.subtree (h : arena.Forest first places last) (hm : (place, id) ∈ places) :
    ∃ start, arena.Subtree place start id ∧ first ≤ start ∧ id.index < last := by
  induction places generalizing first with
  | nil => simp at hm
  | cons head tail ih =>
    rcases head with ⟨headPlace, headId⟩
    obtain ⟨hs, ht⟩ := forest_cons_iff.mp h
    have hl := hs.le
    rcases List.mem_cons.mp hm with he | hm
    · cases he
      exact ⟨first, hs, Nat.le_refl _, ht.le⟩
    · obtain ⟨start, hsub, hstart, hlast⟩ := ih ht hm
      exact ⟨start, hsub, by omega, hlast⟩

/-- What is directly below a node of a subtree is again the root of a subtree. -/
theorem Subtree.child (h : arena.Subtree place first id) (hkind : arena.kind? id = some kind)
    {below : NodeId} {at' : Place} (hm : (at', below) ∈ kind.places) :
    ∃ start, arena.Subtree at' start below ∧ first ≤ start ∧ below.index < id.index := by
  obtain ⟨found, hfound, _, _, hf⟩ := subtree_iff.mp h
  rw [hkind, Option.some.injEq] at hfound
  subst hfound
  exact hf.subtree hm

/-- A parameter is a definition with a written type below it. -/
theorem Subtree.parameter (h : arena.Subtree .parameter first id) :
    ∃ name written, arena.definition? id = some (.parameter name written) ∧
      arena.Subtree .type first written ∧ written.index + 1 = id.index := by
  obtain ⟨kind, hkind, hadmits, _, below⟩ := subtree_iff.mp h
  match kind with
  | .definition (.parameter name written) =>
    refine ⟨name, written, by simp [definition?, hkind], ?_⟩
    simpa [NodeKind.places] using below

/-- A member of a definition list is a definition. -/
theorem Subtree.isSome_definition? (h : arena.Subtree .definition first id) :
    (arena.definition? id).isSome := by
  obtain ⟨kind, hkind, hadmits, _, _⟩ := subtree_iff.mp h
  cases kind with
  | definition item => simp [definition?, hkind]
  | definitions | expression | type => simp [Place.admits] at hadmits

/-- Where definitions stand together there is a definition list. -/
theorem Subtree.exists_members (h : arena.Subtree .definitions first id) :
    ∃ members, arena.kind? id = some (.definitions members) := by
  obtain ⟨kind, hkind, hadmits, _, _⟩ := subtree_iff.mp h
  cases kind with
  | definitions members => exact ⟨members, hkind⟩
  | definition | expression | type => simp [Place.admits] at hadmits

/-- The members of a definition list are definitions, but no parameters. -/
theorem Subtree.exists_definition {members : List NodeId} {member : NodeId}
    (h : arena.Subtree .definitions first id) (hk : arena.kind? id = some (.definitions members))
    (hm : member ∈ members) :
    ∃ item, arena.kind? member = some (.definition item) ∧ item.kind ≠ .parameter := by
  obtain ⟨start, hsub, _⟩ := h.child hk (List.mem_map.mpr ⟨member, hm, rfl⟩)
  obtain ⟨kind, hkind, hadmits, _, _⟩ := subtree_iff.mp hsub
  cases kind with
  | definition item =>
    refine ⟨item, hkind, ?_⟩
    rintro hp
    cases item with
    | parameter => simp [Place.admits] at hadmits
    | function | var | type => cases hp
  | definitions | expression | type => simp [Place.admits] at hadmits

/-- In a forest of written types there are only written types. -/
theorem Forest.types (h : arena.Forest first places last)
    (hp : ∀ member ∈ places, member.1 = Place.type) :
    ∀ {node : NodeId}, first ≤ node.index → node.index < last →
      ∃ written, arena.kind? node = some (.type written) := by
  induction h with
  | nil => intro node hf hl; omega
  | @cons first last place id kind others hkind hadmits hregular below behind hb ho =>
    intro node hf hl
    obtain rfl : place = .type := hp _ List.mem_cons_self
    cases kind with
    | definitions | definition | expression => simp [Place.admits] at hadmits
    | type written =>
      rcases Nat.lt_trichotomy node.index id.index with hlt | heq | hgt
      · exact hb (by simp [NodeKind.places]) hf hlt
      · obtain rfl := NodeId.eq_of_index heq
        exact ⟨written, hkind⟩
      · exact ho (fun member hm => hp member (List.mem_cons_of_mem _ hm)) (by omega) hl

/-- In a forest of parameters and written types there is nothing else. -/
theorem Forest.signature (h : arena.Forest first places last)
    (hp : ∀ member ∈ places, member.1 = Place.type ∨ member.1 = Place.parameter) :
    ∀ {node : NodeId}, first ≤ node.index → node.index < last →
      ∃ kind, arena.kind? node = some kind ∧ kind.isSignature = true := by
  induction h with
  | nil => intro node hf hl; omega
  | @cons first last place id kind others hkind hadmits hregular below behind hb ho =>
    intro node hf hl
    have hplace := hp _ List.mem_cons_self
    have hkept : kind.isSignature = true ∧ ∀ member ∈ kind.places, member.1 = Place.type := by
      cases kind with
      | type item => simp [NodeKind.isSignature, NodeKind.places]
      | definition item =>
        cases item with
        | parameter => simp [NodeKind.isSignature, NodeKind.places]
        | function | var | type => rcases hplace with rfl | rfl <;> cases hadmits
      | definitions | expression => rcases hplace with rfl | rfl <;> cases hadmits
    rcases Nat.lt_trichotomy node.index id.index with hlt | heq | hgt
    · exact hb (fun member hm => .inl (hkept.2 member hm)) hf hlt
    · obtain rfl := NodeId.eq_of_index heq
      exact ⟨kind, hkind, hkept.1⟩
    · exact ho (fun member hm => hp member (List.mem_cons_of_mem _ hm)) (by omega) hl

/-- What stands in front of the body of a function: its parameters and its result. -/
def signaturePlaces (parameters : List NodeId) (result : NodeId) : List (Place × NodeId) :=
  parameters.map (.parameter, ·) ++ [(.type, result)]

theorem signaturePlaces_types {parameters : List NodeId} {result : NodeId} :
    ∀ member ∈ signaturePlaces parameters result,
      member.1 = Place.type ∨ member.1 = Place.parameter := by
  intro member hm
  rcases List.mem_append.mp hm with hm | hm
  · obtain ⟨parameter, _, rfl⟩ := List.mem_map.mp hm
    exact .inr rfl
  · obtain rfl := List.mem_singleton.mp hm
    exact .inl rfl

/-- The signature of a function stands in front of its body. -/
theorem Forest.function {name : String} {parameters : List NodeId} {result body : NodeId}
    (h : arena.Forest first
      (NodeKind.definition (.function name parameters result body)).places last) :
    ∃ middle, arena.Forest first (signaturePlaces parameters result) middle ∧
      arena.Subtree .expression middle body ∧ body.index + 1 = last := by
  have hsplit : (NodeKind.definition (.function name parameters result body)).places =
      signaturePlaces parameters result ++ [(.expression, body)] := by
    simp [NodeKind.places, signaturePlaces]
  rw [hsplit, forest_append_iff] at h
  obtain ⟨middle, hsignature, hbody⟩ := h
  obtain ⟨hbody, hend⟩ := forest_cons_iff.mp hbody
  exact ⟨middle, hsignature, hbody, forest_nil_iff.mp hend⟩

/-- Every number of a forest is the root of a subtree inside the forest. -/
theorem Forest.exists_subtree (h : arena.Forest first places last) :
    ∀ {node : NodeId}, first ≤ node.index → node.index < last →
      ∃ place start, arena.Subtree place start node ∧ first ≤ start := by
  induction h with
  | nil => intro node hf hl; omega
  | @cons first last place id kind others hkind hadmits hregular below behind hb ho =>
    intro node hf hl
    rcases Nat.lt_trichotomy node.index id.index with hlt | heq | hgt
    · exact hb hf hlt
    · obtain rfl := NodeId.eq_of_index heq
      exact ⟨place, first, subtree_iff.mpr ⟨kind, hkind, hadmits, hregular, below⟩, Nat.le_refl _⟩
    · obtain ⟨place, start, hs, hstart⟩ := ho (by omega) hl
      have hle := below.le
      exact ⟨place, start, hs, by omega⟩

/-- The definition of a number says what its node stands for. -/
theorem kind?_of_definition? {definition : Definition}
    (h : arena.definition? id = some definition) :
    arena.kind? id = some (.definition definition) := by
  unfold definition? at h
  split at h
  · next hk => rw [hk]; cases h; rfl
  · cases h

/-- The expression of a number says what its node stands for. -/
theorem kind?_of_expression? {expression : Expression}
    (h : arena.expression? id = some expression) :
    arena.kind? id = some (.expression expression) := by
  unfold expression? at h
  split at h
  · next hk => rw [hk]; cases h; rfl
  · cases h

/-- The written type of a number says what its node stands for. -/
theorem kind?_of_type? {written : WrittenType} (h : arena.type? id = some written) :
    arena.kind? id = some (.type written) := by
  unfold type? at h
  split at h
  · next hk => rw [hk]; cases h; rfl
  · cases h

/-- Where a forest begins follows from its places and its end. -/
theorem Forest.first_unique {other : Nat} (h : arena.Forest first places last)
    (ho : arena.Forest other places last) : first = other := by
  induction h generalizing other with
  | nil => exact (forest_nil_iff.mp ho).symm
  | cons hkind _ _ _ _ hb _ =>
    obtain ⟨hs, _⟩ := forest_cons_iff.mp ho
    obtain ⟨kind, hk, _, _, hbelow⟩ := subtree_iff.mp hs
    cases hkind.symm.trans hk
    exact hb hbelow

/-- The smallest number of a subtree follows from its root. -/
theorem Subtree.first_unique {other : Nat} {at' : Place} (h : arena.Subtree place first id)
    (ho : arena.Subtree at' other id) : first = other := by
  obtain ⟨kind, hk, _, _, hbelow⟩ := subtree_iff.mp h
  obtain ⟨kind', hk', _, _, hbelow'⟩ := subtree_iff.mp ho
  cases hk.symm.trans hk'
  exact hbelow.first_unique hbelow'

/-- Every node of a tree is the root of a subtree. -/
theorem IsTree.exists_subtree (h : arena.IsTree) (hk : arena.kind? id = some kind) :
    ∃ place first, arena.Subtree place first id := by
  obtain ⟨root, _, hsize, hs⟩ := h
  have hid : id.index < root.index + 1 := hsize ▸ index_lt_size hk
  obtain ⟨place, first, hsub, _⟩ := Forest.exists_subtree hs (Nat.zero_le _) hid
  exact ⟨place, first, hsub⟩

/-- The counter of a loop is a name. -/
theorem IsTree.kind?_counter (h : arena.IsTree) {counter low high step body : NodeId}
    (hk : arena.kind? id = some (.expression (.forLoop counter low high step body))) :
    ∃ word, arena.kind? counter = some (.expression (.name word)) := by
  obtain ⟨place, first, hs⟩ := h.exists_subtree hk
  obtain ⟨_, hcounter, _, _⟩ := hs.child hk List.mem_cons_self
  obtain ⟨kind, hkind, hadmits, _, _⟩ := subtree_iff.mp hcounter
  cases kind with
  | expression item =>
    cases item with
    | name word => exact ⟨word, hkind⟩
    | _ => cases hadmits
  | _ => cases hadmits

/-- A forest stays one when the arena grows. -/
theorem Forest.of_kind_eq {grown : Arena} (h : arena.Forest first places last)
    (hg : ∀ id kind, arena.kind? id = some kind → grown.kind? id = some kind) :
    grown.Forest first places last := by
  induction h with
  | nil => exact .nil _
  | cons hkind hadmits hregular _ _ hb ho => exact .cons (hg _ _ hkind) hadmits hregular hb ho

end Arena

end Pins
