import Mathlib.Data.List.Nodup
import Pins.Proofs.Enclosing
import Pins.Proofs.Parsed
import Pins.Proofs.Sourced
import Pins.Proofs.Storage
import Pins.Proofs.Traversal

/-!
# Arenas of programs that were read

An arena of a program that was read is well-formed (`wellFormed_of_parse`): it is a tree with the
children in front of their parents, every node of it has the nodes below it that its form asks for,
and an integer literal is a number that fits a signed word. The later passes keep what they find out
about a node under its number, once, and take the forms of its children for granted.
-/

namespace Pins

/-- An integer among tokens is a run of digits. -/
theorem Lexed.digits_of_mem {tokens : List Token} {token : Token} (h : Lexed tokens)
    (hm : token ∈ tokens) (hk : token.kind = .integer) :
    ∃ number, Text.digits? token.value.toList = some number := by
  induction h with
  | last he =>
    obtain rfl := List.mem_singleton.mp hm
    cases he.symm.trans hk
  | cons _ hdigits _ ih =>
    rcases List.mem_cons.mp hm with rfl | hm
    · exact hdigits hk
    · exact ih hm

namespace Arena

variable {arena : Arena} {id root below : NodeId} {kind : NodeKind} {place : Place}

/-- A node of the arena is of a sort that may stand in a place. -/
def Suits (arena : Arena) (place : Place) (id : NodeId) : Prop :=
  ∃ kind, arena.kind? id = some kind ∧ place.admits kind = true

/-- The nodes below a node are of the sorts that its form asks for, lists and blocks have members,
and integers are runs of digits that fit a signed word. -/
def Fits (arena : Arena) : NodeKind → Prop
  | .definitions members => members ≠ [] ∧ ∀ member ∈ members, arena.Suits .definition member
  | .definition (.function _ parameters result body) =>
    (∀ parameter ∈ parameters, arena.Suits .parameter parameter) ∧
      arena.Suits .type result ∧ arena.Suits .expression body
  | .definition (.var _ written) => arena.Suits .type written
  | .definition (.type _ written) => arena.Suits .type written
  | .definition (.parameter _ written) => arena.Suits .type written
  | .expression (.call _ arguments) => ∀ argument ∈ arguments, arena.Suits .expression argument
  | .expression (.binary _ left right) =>
    arena.Suits .expression left ∧ arena.Suits .expression right
  | .expression (.block expressions) =>
    expressions ≠ [] ∧ ∀ member ∈ expressions, arena.Suits .expression member
  | .expression (.forLoop counter low high step body) =>
    arena.Suits .counter counter ∧ arena.Suits .expression low ∧ arena.Suits .expression high ∧
      arena.Suits .expression step ∧ arena.Suits .expression body
  | .expression (.whileLoop condition body) =>
    arena.Suits .expression condition ∧ arena.Suits .expression body
  | .expression (.name _) => True
  | .expression (.conditional condition thenBranch elseBranch) =>
    arena.Suits .expression condition ∧ arena.Suits .expression thenBranch ∧
      ∀ branch ∈ elseBranch, arena.Suits .expression branch
  | .expression (.literal value .integer) =>
    ∃ number, Text.digits? value.toList = some number ∧ number ≤ 2147483647
  | .expression (.literal ..) => True
  | .expression (.unary _ operand) => arena.Suits .expression operand
  | .expression (.whereClause definitions body) =>
    arena.Suits .definitions definitions ∧ arena.Suits .expression body
  | .type (.array _ element) => arena.Suits .type element
  | .type _ => True

/-- The arena is a tree of fitting nodes. -/
structure WellFormed (arena : Arena) : Prop where
  /-- What stands below a node was added before it. -/
  child_lt : ∀ id kind, arena.kind? id = some kind →
    ∀ below ∈ kind.children, below.index < id.index
  /-- The root lists definitions and is the last node. -/
  root_last : ∃ root, arena.root = some root ∧ root.index + 1 = arena.size ∧
    arena.Suits .definitions root
  /-- Every other node stands below exactly one node and at exactly one place there. -/
  one_parent : ∀ id, id.index < arena.size → arena.root ≠ some id →
    ∃! site : NodeId × Nat, ∃ kind, arena.kind? site.1 = some kind ∧
      kind.children[site.2]? = some id
  /-- Every node has the nodes below it that its form asks for. -/
  fits : ∀ id kind, arena.kind? id = some kind → arena.Fits kind

/-- What stands in a place below a node was added before it and is of the sort of the place. -/
theorem IsTree.suits (ht : arena.IsTree) (hk : arena.kind? id = some kind)
    (hm : (place, below) ∈ kind.places) : below.index < id.index ∧ arena.Suits place below := by
  obtain ⟨_, _, hs⟩ := ht.exists_subtree hk
  obtain ⟨_, hsub, _, hlt⟩ := hs.child hk hm
  obtain ⟨found, hfound, hadmits, _, _⟩ := subtree_iff.mp hsub
  exact ⟨hlt, found, hfound, hadmits⟩

/-- What stands directly below a node is a node in front of it. -/
theorem IsTree.exists_child (ht : arena.IsTree) (hk : arena.kind? id = some kind)
    (hm : below ∈ kind.children) :
    ∃ place, (place, below) ∈ kind.places ∧ arena.Suits place below ∧ below.index < id.index := by
  obtain ⟨⟨place, child⟩, hp, he⟩ := List.mem_map.mp ((NodeKind.mem_children_iff kind below).mp hm)
  cases he
  obtain ⟨hlt, hsuits⟩ := ht.suits hk hp
  exact ⟨place, hp, hsuits, hlt⟩

/-- In the place of an expression stands an expression, and so it does in that of a counter. -/
theorem Suits.exists_expression (h : arena.Suits place id)
    (hp : place = .expression ∨ place = .counter) :
    ∃ item, arena.kind? id = some (.expression item) := by
  obtain ⟨kind, hk, hadmits⟩ := h
  cases kind with
  | expression item => exact ⟨item, hk⟩
  | definitions | definition | type => rcases hp with rfl | rfl <;> cases hadmits

/-- In the place of a written type stands a written type. -/
theorem Suits.exists_type (h : arena.Suits .type id) :
    ∃ item, arena.kind? id = some (.type item) := by
  obtain ⟨kind, hk, hadmits⟩ := h
  cases kind with
  | type item => exact ⟨item, hk⟩
  | definitions | definition | expression => cases hadmits

/-- In the place of a parameter stands a parameter. -/
theorem Suits.exists_parameter (h : arena.Suits .parameter id) :
    ∃ name written, arena.kind? id = some (.definition (.parameter name written)) := by
  obtain ⟨kind, hk, hadmits⟩ := h
  cases kind with
  | definition item =>
    cases item with
    | parameter name written => exact ⟨name, written, hk⟩
    | function | var | type => cases hadmits
  | definitions | expression | type => cases hadmits

/-- Places of one sort are filled if their nodes are of this sort. -/
theorem suits_map {ids : List NodeId} :
    (∀ entry ∈ ids.map (place, ·), arena.Suits entry.1 entry.2) ↔
      ∀ id ∈ ids, arena.Suits place id := by
  simp

/-- A node whose places are filled as they should be has the nodes that its form asks for. -/
theorem fits_of_places (hp : ∀ entry ∈ kind.places, arena.Suits entry.1 entry.2)
    (hr : kind.isRegular = true)
    (hd : ∀ value, kind = .expression (.literal value .integer) →
      ∃ number, Text.digits? value.toList = some number) : arena.Fits kind := by
  cases kind with
  | definitions members =>
    exact ⟨by simpa [NodeKind.isRegular] using hr, suits_map.mp hp⟩
  | definition item =>
    cases item with
    | function =>
      obtain ⟨hparameters, hrest⟩ := List.forall_mem_append.mp hp
      exact ⟨suits_map.mp hparameters, by simpa using hrest⟩
    | var | type | parameter => simpa [Fits, NodeKind.places] using hp
  | expression item =>
    cases item with
    | literal value atom =>
      cases atom with
      | integer =>
        obtain ⟨number, hnumber⟩ := hd value rfl
        exact ⟨number, hnumber, (Text.isSome_signed?_iff hnumber).mp hr⟩
      | logical | string => trivial
    | name => trivial
    | call => exact suits_map.mp hp
    | block => exact ⟨by simpa [NodeKind.isRegular] using hr, suits_map.mp hp⟩
    | whereClause inner body =>
      have hboth : arena.Suits .expression body ∧ arena.Suits .definitions inner := by
        simpa [NodeKind.places] using hp
      exact hboth.symm
    | binary | forLoop | whileLoop | conditional | unary =>
      simpa [Fits, NodeKind.places, Expression.children] using hp
  | type item =>
    cases item with
    | array => simpa [Fits, NodeKind.places, WrittenType.children] using hp
    | atom | name => trivial

/-- No node stands twice below another one. -/
theorem IsTree.nodup_children (ht : arena.IsTree) (hk : arena.kind? id = some kind) :
    kind.children.Nodup := by
  obtain ⟨_, _, hs⟩ := ht.exists_subtree hk
  obtain ⟨found, hfound, _, _, hbelow⟩ := subtree_iff.mp hs
  cases hk.symm.trans hfound
  have hnodup : ((kind.places.map Prod.snd).flatMap fun id => [id]).Nodup :=
    (hbelow.nodup_flatMap fun _ id _ _ hsub =>
      ⟨List.nodup_singleton id, by simpa using hsub.le⟩).1
  rw [List.flatMap_singleton'] at hnodup
  exact kind.children_perm.nodup_iff.mpr hnodup

/-- A node of a tree other than the root stands below a node. -/
theorem IsTree.exists_parent (ht : arena.IsTree) (hid : id.index < arena.size)
    (hr : arena.root ≠ some id) :
    ∃ parent kind, arena.kind? parent = some kind ∧ id ∈ kind.children := by
  have hk : arena.kind? id = some arena.nodes[id.index].kind := by
    rw [kind?, node?, Array.getElem?_eq_getElem hid, Option.map_some]
  obtain ⟨_, hencloses⟩ := ht.exists_encloses hk
  cases hencloses with
  | root hroot => exact absurd hroot hr
  | child _ hkind hmem => exact ⟨_, _, hkind, hmem⟩

/-- A node of a tree other than the root stands at one place below one node. -/
theorem IsTree.existsUnique_site (ht : arena.IsTree) (hid : id.index < arena.size)
    (hr : arena.root ≠ some id) : ∃! site : NodeId × Nat, ∃ kind,
      arena.kind? site.1 = some kind ∧ kind.children[site.2]? = some id := by
  obtain ⟨parent, kind, hkind, hmem⟩ := ht.exists_parent hid hr
  obtain ⟨at', hat⟩ := List.mem_iff_getElem?.mp hmem
  refine ⟨(parent, at'), ⟨kind, hkind, hat⟩, ?_⟩
  rintro ⟨other, place⟩ ⟨kind', hkind', hplace⟩
  obtain rfl := ht.parent_unique hkind' (List.mem_of_getElem? hplace) hkind hmem
  cases hkind.symm.trans hkind'
  obtain ⟨hlt, _⟩ := List.getElem?_eq_some_iff.mp hplace
  have hsame := (List.getElem?_inj hlt (ht.nodup_children hkind)).mp (hplace.trans hat.symm)
  exact Prod.ext rfl hsame

end Arena

variable {file source : String} {tokens : List Token} {arena : Arena}

/-- The literals of a program that was read for integers are runs of digits. -/
theorem digits_of_parse {id : NodeId} {value : String} (hl : Lexed tokens)
    (hp : parse file tokens = .ok arena)
    (hk : arena.kind? id = some (.expression (.literal value .integer))) :
    ∃ number, Text.digits? value.toList = some number := by
  obtain ⟨token, hmem, hinteger, rfl⟩ := exists_token_of_literal hl hp hk
  exact hl.digits_of_mem hmem hinteger

/-- Whatever source is cut into tokens and read, its arena is a tree whose nodes have smaller
numbers than those they stand below, whose root comes last, in which every other node stands at one
place below one node, and whose nodes have what their forms ask for. -/
theorem wellFormed_of_parse {named : String} (ht : tokenize file source = .ok tokens)
    (hp : parse named tokens = .ok arena) : arena.WellFormed where
  child_lt _ _ hk _ hmem := (parse_isTree hp).index_lt hk hmem
  root_last := by
    obtain ⟨root, hroot, hlast, hs⟩ := parse_isTree hp
    obtain ⟨kind, hkind, hadmits, _, _⟩ := Arena.subtree_iff.mp hs
    exact ⟨root, hroot, hlast, kind, hkind, hadmits⟩
  one_parent _ hid hr := (parse_isTree hp).existsUnique_site hid hr
  fits id kind hk := by
    obtain ⟨_, _, hs⟩ := (parse_isTree hp).exists_subtree hk
    obtain ⟨found, hfound, _, hregular, _⟩ := Arena.subtree_iff.mp hs
    cases hk.symm.trans hfound
    refine Arena.fits_of_places (fun entry hmem => ?_) hregular fun value he => ?_
    · obtain ⟨_, hsub, _, _⟩ := hs.child hk hmem
      obtain ⟨kind, hkind, hadmits, _, _⟩ := Arena.subtree_iff.mp hsub
      exact ⟨kind, hkind, hadmits⟩
    · exact digits_of_parse (lexed_of_tokenize ht) hp (he ▸ hk)

/-- A loop, and an index that becomes the left side of an assignment. -/
theorem wellFormed_of_parse_loop : ∃ tokens arena,
    tokenize "loop" "fun f(a: arr [3] integer): integer = {for i = 0, 3, 1: {a[i] = -(i + 1)}}" =
      .ok tokens ∧
    parse "loop" tokens = .ok arena ∧ arena.WellFormed := by
  have hread : ((tokenize "loop"
      "fun f(a: arr [3] integer): integer = {for i = 0, 3, 1: {a[i] = -(i + 1)}}").bind
        (parse "loop")).isOk = true := by
    decide +kernel
  generalize "fun f(a: arr [3] integer): integer = {for i = 0, 3, 1: {a[i] = -(i + 1)}}" = source
    at hread ⊢
  cases ht : tokenize "loop" source with
  | error found => simp [ht, Except.bind, Except.isOk, Except.toBool] at hread
  | ok tokens =>
    cases hp : parse "loop" tokens with
    | error found => simp [ht, hp, Except.bind, Except.isOk, Except.toBool] at hread
    | ok arena => exact ⟨tokens, arena, rfl, hp, wellFormed_of_parse ht hp⟩

end Pins
