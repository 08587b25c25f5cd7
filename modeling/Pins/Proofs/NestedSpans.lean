import Pins.Proofs.Acyclic
import Pins.Proofs.Stretches
import Pins.Proofs.WellFormed

/-!
# Stretches nest like the tree

In a program that was read, a node lies inside the nodes that it is below, and two nodes neither of
which is below the other have no character in common (`nested_of_parse`).

Nodes are numbered in the order in which their reading ended. So of two nodes, the one with the
smaller number is below the other one, or it ends in front of it (`Forest.below_or_before`).
-/

namespace Pins

open Text Relation

/-- A stretch lies inside another one. -/
def Text.Span.Within (inner outer : Span) : Prop :=
  outer.start ≤ inner.start ∧ inner.stop ≤ outer.stop

namespace Arena

variable {arena : Arena} {id other above below root : NodeId} {kind : NodeKind}
  {tokens : List Token} {first last : Nat} {places : List (Place × NodeId)}

/-- What is known of the stretches of nodes. -/
structure Nested (tokens : List Token) (arena : Arena) : Prop where
  /-- Every node begins where a token begins, ends where a token ends, and is not empty. -/
  proper : ∀ id, id.index < arena.size → Begins tokens (arena.span id).start ∧
    Ends tokens (arena.span id).stop ∧ (arena.span id).start < (arena.span id).stop
  /-- A node lies inside the node that it stands below. -/
  within : ∀ above below, arena.Above above below → (arena.span below).Within (arena.span above)
  /-- The nodes below a node lie one behind the other in the order in which it lists them. -/
  ordered : ∀ id kind, arena.kind? id = some kind →
    (∀ inner body, kind ≠ .expression (.whereClause inner body)) →
    kind.children.Pairwise fun earlier later =>
      (arena.span earlier).stop ≤ (arena.span later).start
  /-- The definitions of a where clause lie behind its expression. -/
  whereClause : ∀ id inner body,
    arena.kind? id = some (.expression (.whereClause inner body)) →
    (arena.span body).stop ≤ (arena.span inner).start
  /-- Of two nodes, one is the other or stands below it and lies inside it, or one ends in front of
  the other. -/
  apart : ∀ id other, id.index < arena.size → other.index < arena.size →
    ReflTransGen arena.Above id other ∧ (arena.span other).Within (arena.span id) ∨
    ReflTransGen arena.Above other id ∧ (arena.span id).Within (arena.span other) ∨
    (arena.span id).stop ≤ (arena.span other).start ∨
    (arena.span other).stop ≤ (arena.span id).start

/-- The node of a number that stands for something. -/
theorem exists_node (hk : arena.kind? id = some kind) :
    ∃ node, arena.node? id = some node ∧ node.kind = kind ∧ arena.span id = node.span := by
  obtain ⟨node, hnode, hkind⟩ := Option.map_eq_some_iff.mp hk
  exact ⟨node, hnode, hkind, by rw [span, hnode]⟩

/-- Every number below the size of an arena stands for something. -/
theorem exists_kind (hid : id.index < arena.size) : ∃ kind, arena.kind? id = some kind :=
  ⟨arena.nodes[id.index].kind, by rw [kind?, node?, Array.getElem?_eq_getElem hid, Option.map_some]⟩

namespace Spans

variable (h : arena.Spans tokens)
include h

/-- The nodes below a node lie in a row inside it. -/
theorem row (hk : arena.kind? id = some kind) :
    arena.Row (arena.span id).start kind.inSource (arena.span id).stop := by
  obtain ⟨node, hnode, rfl, hspan⟩ := exists_node hk
  rw [hspan]
  exact (h id node hnode).row

/-- A node lies inside the node that it stands directly below. -/
theorem within (ha : arena.Above above below) : (arena.span below).Within (arena.span above) := by
  obtain ⟨kind, hk, hmem⟩ := ha
  have hsource : below ∈ kind.inSource := (kind.mem_children_iff below).mp hmem
  exact ⟨(h.row hk).start_le hsource, (h.row hk).le_stop hsource⟩

/-- A node lies inside all nodes that it is below. -/
theorem within_of_reflTransGen (ha : ReflTransGen arena.Above above below) :
    (arena.span below).Within (arena.span above) := by
  induction ha with
  | refl => exact ⟨le_refl _, le_refl _⟩
  | tail _ hlast ih =>
    have hstep := h.within hlast
    exact ⟨ih.1.trans hstep.1, hstep.2.trans ih.2⟩

end Spans

/-- Every node of a forest is below a root of it. -/
theorem Forest.exists_root (hf : arena.Forest first places last) :
    ∀ {node : NodeId}, first ≤ node.index → node.index < last →
      ∃ root ∈ places.map Prod.snd, ReflTransGen arena.Above root node := by
  induction hf with
  | nil =>
    intro node hlow hhigh
    omega
  | @cons first last place id kind others hkind _ _ below behind hb ho =>
    intro node hlow hhigh
    rcases Nat.lt_trichotomy node.index id.index with hlt | heq | hgt
    · obtain ⟨root, hroot, hreach⟩ := hb hlow hlt
      have habove : arena.Above id root := ⟨kind, hkind, (kind.mem_children_iff root).mpr hroot⟩
      exact ⟨id, by simp, .head habove hreach⟩
    · obtain rfl := NodeId.eq_of_index heq
      exact ⟨node, by simp, .refl⟩
    · obtain ⟨root, hroot, hreach⟩ := ho (by omega) hhigh
      exact ⟨root, by simp only [List.map_cons, List.mem_cons]; exact .inr hroot, hreach⟩

/-- In a forest whose roots lie one behind the other, a node is below a later one or ends in front
of it. -/
theorem Forest.below_or_before (h : arena.Spans tokens) (hf : arena.Forest first places last)
    (hp : (places.map Prod.snd).Pairwise fun earlier later =>
      (arena.span earlier).stop ≤ (arena.span later).start) :
    ∀ {id other : NodeId}, first ≤ id.index → id.index < other.index → other.index < last →
      ReflTransGen arena.Above other id ∨ (arena.span id).stop ≤ (arena.span other).start := by
  induction hf with
  | nil =>
    intro id other hlow hlt hhigh
    omega
  | @cons first last place root kind others hkind hadmits hregular below behind hb ho =>
    intro id other hlow hlt hhigh
    obtain ⟨hahead, hothers⟩ := List.pairwise_cons.mp hp
    have hinside := (h.row hkind).pairwise
    rcases Nat.lt_trichotomy other.index root.index with hother | hother | hother
    · exact hb hinside hlow hlt hother
    · -- the root is above everything below it
      obtain rfl := NodeId.eq_of_index hother
      obtain ⟨child, hchild, hreach⟩ := below.exists_root hlow hlt
      exact .inl (.head ⟨kind, hkind, (kind.mem_children_iff child).mpr hchild⟩ hreach)
    · rcases Nat.lt_or_ge root.index id.index with hid | hid
      · exact ho hothers (by omega) hlt hhigh
      · -- the first tree ends in front of the one in which the later node stands
        have hsub := Arena.Forest.cons hkind hadmits hregular below (.nil (root.index + 1))
        obtain ⟨top, htop, hreach⟩ := hsub.exists_root hlow (by omega)
        obtain rfl : top = root := by simpa using htop
        obtain ⟨next, hnext, hreach'⟩ := behind.exists_root hother hhigh
        have hends := (h.within_of_reflTransGen hreach).2
        have hbegins := (h.within_of_reflTransGen hreach').1
        exact .inr ((hends.trans (hahead next hnext)).trans hbegins)

/-- In a tree, two nodes lie inside each other along a path or have nothing in common. -/
theorem Spans.nested (h : arena.Spans tokens) (ht : arena.IsTree) : arena.Nested tokens where
  proper id hid := by
    obtain ⟨kind, hk⟩ := exists_kind hid
    obtain ⟨node, hnode, _, hspan⟩ := exists_node hk
    have hspans := h id node hnode
    rw [hspan]
    exact ⟨hspans.begins, hspans.ends, hspans.proper⟩
  within _ _ ha := h.within ha
  ordered id kind hk hplain := by
    rw [← NodeKind.inSource_eq_children hplain]
    exact (h.row hk).pairwise
  whereClause id inner body hk := by
    have hpair : [body, inner].Pairwise fun earlier later =>
        (arena.span earlier).stop ≤ (arena.span later).start := (h.row hk).pairwise
    exact (List.pairwise_cons.mp hpair).1 inner (by simp)
  apart id other hid hother := by
    obtain ⟨root, _, hsize, hs⟩ := ht
    have hnumbers : ∀ {node : NodeId}, node.index < arena.size → node.index < root.index + 1 :=
      fun hn => hsize ▸ hn
    have hsingle : ([(Place.definitions, root)].map Prod.snd).Pairwise fun earlier later =>
        (arena.span earlier).stop ≤ (arena.span later).start := List.pairwise_singleton _ _
    rcases Nat.lt_trichotomy id.index other.index with hlt | heq | hgt
    · rcases Forest.below_or_before h hs hsingle (Nat.zero_le _) hlt (hnumbers hother) with
        hbelow | hbefore
      · exact .inr (.inl ⟨hbelow, h.within_of_reflTransGen hbelow⟩)
      · exact .inr (.inr (.inl hbefore))
    · obtain rfl := NodeId.eq_of_index heq
      exact .inl ⟨.refl, le_refl _, le_refl _⟩
    · rcases Forest.below_or_before h hs hsingle (Nat.zero_le _) hgt (hnumbers hid) with
        hbelow | hbefore
      · exact .inl ⟨hbelow, h.within_of_reflTransGen hbelow⟩
      · exact .inr (.inr (.inr hbefore))

end Arena

variable {file named source : String} {tokens : List Token} {arena : Arena}

/-- Whatever source is cut into tokens and read, the stretches of its nodes nest like the nodes. -/
theorem nested_of_parse (ht : tokenize file source = .ok tokens)
    (hp : parse named tokens = .ok arena) : arena.Nested tokens :=
  (spans_of_parse (lexed_of_tokenize ht) (inOrder_of_tokenize ht) hp).nested (parse_isTree hp)

/-- A where clause, whose definitions are listed in front of its expression but lie behind it. -/
theorem nested_of_parse_where : ∃ tokens arena,
    tokenize "where" "fun f(): integer =\n  x + 1 \x7bwhere var x: integer\x7d" = .ok tokens ∧
    parse "where" tokens = .ok arena ∧ arena.Nested tokens := by
  have hread : ((tokenize "where"
      "fun f(): integer =\n  x + 1 \x7bwhere var x: integer\x7d").bind
        (parse "where")).isOk = true := by
    decide +kernel
  generalize "fun f(): integer =\n  x + 1 \x7bwhere var x: integer\x7d" = source at hread ⊢
  cases ht : tokenize "where" source with
  | error found => simp [ht, Except.bind, Except.isOk, Except.toBool] at hread
  | ok tokens =>
    cases hp : parse "where" tokens with
    | error found => simp [ht, hp, Except.bind, Except.isOk, Except.toBool] at hread
    | ok arena => exact ⟨tokens, arena, rfl, hp, nested_of_parse ht hp⟩

end Pins
