import Pins.Layout
import Pins.Proofs.Enclosing

/-!
# What a frame keeps

A function keeps its parameters, and the variables and type definitions that stand in it: those of
its where clauses, but not those of the functions defined there. `Arena.storage` lists them in the
order in which they are laid out, the definitions of a where clause before those in its expression.
The list of a function has every such definition exactly once (`IsTree.mem_localsOf_iff`,
`IsTree.nodup_localsOf`).
-/

namespace Pins

namespace NodeKind

/-- A node of this kind keeps a value among the locals of the function it stands in. -/
def isLocal : NodeKind → Bool
  | definition (.var ..) | definition (.type ..) => true
  | _ => false

/-- The nodes directly below a node that are laid out in the same frame, in the order in which they
are. -/
def inner : NodeKind → List NodeId
  | definitions members => members
  | expression item => item.children
  | definition _ | type _ => []

/-- What is laid out in the same frame stands directly below the node. -/
theorem mem_children_of_mem_inner {kind : NodeKind} {id : NodeId} (h : id ∈ kind.inner) :
    id ∈ kind.children := by
  cases kind with
  | definitions | expression => exact h
  | definition | type => cases h

/-- Either all nodes directly below a node are laid out in the same frame, not always in the order
of their places, or none is. -/
theorem inner_cases (kind : NodeKind) :
    kind.inner = [] ∨ kind.inner.Perm (kind.places.map Prod.snd) := by
  cases kind with
  | definition | type => exact .inl rfl
  | definitions members =>
    exact .inr (by simp [inner, places, Function.comp_def])
  | expression item =>
    refine .inr ?_
    cases item <;>
      simp [inner, places, Expression.children, Function.comp_def, List.Perm.swap]

end NodeKind

namespace Arena

variable {arena : Arena} {id below node : NodeId} {kind : NodeKind} {place : Place}
  {first last : Nat} {places : List (Place × NodeId)} {outer : Option NodeId}

/-- The definitions that are laid out as locals with a node, down to `fuel` levels. -/
def storageWithin (arena : Arena) : Nat → NodeId → List NodeId
  | 0, _ => []
  | fuel + 1, id =>
    match arena.kind? id with
    | none => []
    | some kind => if kind.isLocal then [id] else kind.inner.flatMap (arena.storageWithin fuel)

/-- The definitions that are laid out as locals with a node, in their order. -/
def storage (arena : Arena) : NodeId → List NodeId := arena.storageWithin arena.depthBound

/-- The variables and type definitions that stand in a function. -/
def localsOf (arena : Arena) (function : NodeId) : List NodeId :=
  match arena.definition? function with
  | some (.function _ _ _ body) => arena.storage body
  | _ => []

/-- The parameters of a function. -/
def parametersOf (arena : Arena) (function : NodeId) : List NodeId :=
  match arena.definition? function with
  | some (.function _ parameters _ _) => parameters
  | _ => []

/-- What stands directly below a node has a smaller number. -/
theorem IsTree.index_lt (ht : arena.IsTree) (hk : arena.kind? id = some kind)
    (hm : below ∈ kind.children) : below.index < id.index := by
  obtain ⟨_, _, hs⟩ := ht.exists_subtree hk
  obtain ⟨_, _, _, _, _, hlt⟩ := hs.child_of_mem hk hm
  exact hlt

/-- Any bound above the number of a node is deep enough for what is laid out with it. -/
theorem IsTree.storageWithin_eq (ht : arena.IsTree) {fuel more : Nat} (hf : id.index < fuel)
    (hm : id.index < more) : arena.storageWithin fuel id = arena.storageWithin more id := by
  induction fuel generalizing id more with
  | zero => omega
  | succ fuel ih =>
    cases more with
    | zero => omega
    | succ more =>
      cases hk : arena.kind? id with
      | none => simp only [storageWithin, hk]
      | some kind =>
        have hbelow : ∀ below ∈ kind.inner,
            arena.storageWithin fuel below = arena.storageWithin more below := by
          intro below hb
          have hlt := ht.index_lt hk (NodeKind.mem_children_of_mem_inner hb)
          exact ih (by omega) (by omega)
        simp only [storageWithin, hk, List.flatMap_def, List.map_congr_left hbelow]

/-- A bound above the number of a node finds all that is laid out with it. -/
theorem IsTree.storageWithin_eq_storage (ht : arena.IsTree) {fuel : Nat} (hf : id.index < fuel)
    (hk : arena.kind? id = some kind) : arena.storageWithin fuel id = arena.storage id := by
  have hsize := index_lt_size hk
  have hdepth := arena.size_lt_depthBound
  exact ht.storageWithin_eq hf (by omega)

/-- A local is laid out by itself, any other node by what is in the same frame below it. -/
theorem IsTree.storage_eq (ht : arena.IsTree) (hk : arena.kind? id = some kind) :
    arena.storage id = if kind.isLocal then [id] else kind.inner.flatMap arena.storage := by
  have hsize := index_lt_size hk
  have hbelow : ∀ below ∈ kind.inner,
      arena.storageWithin id.index below = arena.storage below := by
    intro below hb
    have hlt := ht.index_lt hk (NodeKind.mem_children_of_mem_inner hb)
    have hdepth := arena.size_lt_depthBound
    exact ht.storageWithin_eq hlt (by omega)
  rw [← ht.storageWithin_eq_storage (Nat.lt_succ_self id.index) hk]
  simp only [storageWithin, hk, List.flatMap_def, List.map_congr_left hbelow]

/-- A signature keeps no locals. -/
theorem IsTree.storage_signature (ht : arena.IsTree) (hk : arena.kind? id = some kind)
    (hs : kind.isSignature = true) : arena.storage id = [] := by
  rw [ht.storage_eq hk]
  cases kind with
  | definitions | expression => cases hs
  | definition item => cases item <;> first | rfl | cases hs
  | type => rfl

/-- Below a node that is no list of definitions and no expression, only the body of a function is
no signature. -/
theorem IsTree.storage_below (ht : arena.IsTree) (hk : arena.kind? id = some kind)
    (hm : below ∈ kind.children) (hn : below ∉ kind.inner)
    (hb : ∀ name parameters result, kind ≠ .definition (.function name parameters result below)) :
    arena.storage below = [] := by
  obtain ⟨_, _, hs⟩ := ht.exists_subtree hk
  obtain ⟨at', start, hp, hsub, _, _⟩ := hs.child_of_mem hk hm
  obtain ⟨found, hfound, hadmits, _, _⟩ := subtree_iff.mp hsub
  refine ht.storage_signature hfound ?_
  have hplace : at' = .type ∨ at' = .parameter := by
    cases kind with
    | definitions | expression => exact absurd hm hn
    | type item =>
      obtain ⟨_, _, he⟩ := List.mem_map.mp hp
      cases he
      exact .inl rfl
    | definition item =>
      cases item with
      | var | type | parameter =>
        obtain ⟨rfl, _⟩ := Prod.mk.inj (List.mem_singleton.mp hp)
        exact .inl rfl
      | function name parameters result body =>
        rcases List.mem_append.mp hp with hp | hp
        · obtain ⟨_, _, he⟩ := List.mem_map.mp hp
          cases he
          exact .inr rfl
        · rcases List.mem_cons.mp hp with he | hp
          · cases he
            exact .inl rfl
          · obtain ⟨_, rfl⟩ := Prod.mk.inj (List.mem_singleton.mp hp)
            exact absurd rfl (hb name parameters result)
  cases found with
  | definitions | expression => rcases hplace with rfl | rfl <;> cases hadmits
  | definition item => cases item <;> first | rfl | (rcases hplace with rfl | rfl <;> cases hadmits)
  | type => rfl

/-- What is laid out with a node stands where the node stands and is a local. -/
theorem IsTree.encloses_of_mem_storage (ht : arena.IsTree) (he : arena.Encloses outer id)
    (hm : node ∈ arena.storage id) :
    arena.Encloses outer node ∧ (arena.kind? node).any NodeKind.isLocal = true := by
  generalize hbound : id.index = bound
  induction bound using Nat.strongRecOn generalizing id with
  | ind bound ih =>
    subst hbound
    cases hk : arena.kind? id with
    | none =>
      obtain ⟨fuel, hfuel⟩ : ∃ fuel, arena.depthBound = fuel + 1 := by
        have hdepth := arena.size_lt_depthBound
        exact ⟨arena.depthBound - 1, by omega⟩
      simp [storage, hfuel, storageWithin, hk] at hm
    | some kind =>
      rw [ht.storage_eq hk] at hm
      split at hm
      · next hlocal =>
        obtain rfl := List.mem_singleton.mp hm
        exact ⟨he, by rw [hk]; exact hlocal⟩
      · obtain ⟨below, hb, hm⟩ := List.mem_flatMap.mp hm
        have hchild := NodeKind.mem_children_of_mem_inner hb
        have hplain : kind.isFunction = false := by
          cases kind with
          | definitions | expression => rfl
          | definition | type => cases hb
        exact ih below.index (ht.index_lt hk hchild) (he.ofOther hk hplain hchild) hm rfl

/-- What is laid out with a node that stands in a function is laid out with the body. -/
theorem IsTree.storage_subset (ht : arena.IsTree) {name : String} {parameters : List NodeId}
    {owner result body : NodeId}
    (hk : arena.kind? owner = some (.definition (.function name parameters result body)))
    (he : arena.Encloses (some owner) id) : arena.storage id ⊆ arena.storage body := by
  generalize ho : some owner = enclosing at he
  induction he with
  | root => cases ho
  | @child outer id below kind _ hkind hm ih =>
    by_cases hinner : below ∈ kind.inner
    · have hplain : kind.isFunction = false ∧ kind.isLocal = false := by
        cases kind with
        | definitions | expression => exact ⟨rfl, rfl⟩
        | definition | type => cases hinner
      rw [NodeKind.scope_other hplain.1] at ho
      have hid := ih ho
      rw [ht.storage_eq hkind, hplain.2] at hid
      exact fun node hn => hid (List.mem_flatMap_of_mem hinner hn)
    · by_cases hbody : ∃ name parameters result,
          kind = .definition (.function name parameters result below)
      · obtain ⟨name', parameters', result', rfl⟩ := hbody
        rw [NodeKind.scope_function rfl] at ho
        cases ho
        cases hk.symm.trans hkind
        exact List.Subset.refl _
      · have hnone := ht.storage_below hkind hm hinner fun name parameters result h =>
          hbody ⟨name, parameters, result, h⟩
        rw [hnone]
        exact List.nil_subset _

/-- The locals of a function are exactly the variables and type definitions that stand in it and in
no function nested in it. -/
theorem IsTree.mem_localsOf_iff (ht : arena.IsTree) {owner : NodeId}
    (hf : (arena.kind? owner).any NodeKind.isFunction = true) :
    node ∈ arena.localsOf owner ↔
      arena.Encloses (some owner) node ∧ (arena.kind? node).any NodeKind.isLocal = true := by
  obtain ⟨kind, hk, hfunction⟩ := Option.any_eq_true _ _ |>.mp hf
  obtain ⟨name, parameters, result, body, rfl⟩ :
      ∃ name parameters result body,
        kind = .definition (.function name parameters result body) := by
    cases kind with
    | definition item => cases item <;> first | exact ⟨_, _, _, _, rfl⟩ | cases hfunction
    | definitions | expression | type => cases hfunction
  have hlocals : arena.localsOf owner = arena.storage body := by
    simp [localsOf, definition?, hk]
  rw [hlocals]
  constructor
  · intro hm
    obtain ⟨outer, he⟩ := ht.exists_encloses hk
    have hbody : arena.Encloses (some owner) body :=
      he.ofFunction hk rfl (by simp [NodeKind.children, Definition.children])
    exact ht.encloses_of_mem_storage hbody hm
  · rintro ⟨he, hlocal⟩
    obtain ⟨kind, hkind, hlocal⟩ := Option.any_eq_true _ _ |>.mp hlocal
    have hself : node ∈ arena.storage node := by
      rw [ht.storage_eq hkind, if_pos hlocal]
      exact List.mem_singleton_self _
    exact ht.storage_subset hk he hself

/-- Lists of nodes that lie in the subtrees of a forest have no node in common. -/
theorem Forest.nodup_flatMap {pick : NodeId → List NodeId} (h : arena.Forest first places last)
    (hp : ∀ place id start, (place, id) ∈ places → arena.Subtree place start id →
      (pick id).Nodup ∧ ∀ node ∈ pick id, start ≤ node.index ∧ node.index ≤ id.index) :
    ((places.map Prod.snd).flatMap pick).Nodup ∧
      ∀ node ∈ (places.map Prod.snd).flatMap pick, first ≤ node.index ∧ node.index < last := by
  induction places generalizing first with
  | nil => simp
  | cons head others ih =>
    rcases head with ⟨place, id⟩
    obtain ⟨hs, ho⟩ := forest_cons_iff.mp h
    have hle := hs.le
    have hlast := ho.le
    obtain ⟨hone, hin⟩ := hp place id first List.mem_cons_self hs
    obtain ⟨hrest, hbehind⟩ := ih ho fun place id start hm =>
      hp place id start (List.mem_cons_of_mem _ hm)
    simp only [List.map_cons, List.flatMap_cons]
    constructor
    · refine List.nodup_append.mpr ⟨hone, hrest, fun node hn other ho he => ?_⟩
      have hfront := (hin node hn).2
      have hback := (hbehind other ho).1
      rw [he] at hfront
      omega
    · intro node hn
      rcases List.mem_append.mp hn with hn | hn
      · have hnode := hin node hn
        omega
      · have hnode := hbehind node hn
        omega

/-- No definition is laid out twice with a node, and all lie in its subtree. -/
theorem Subtree.nodup_storage (ht : arena.IsTree) (h : arena.Subtree place first id) :
    (arena.storage id).Nodup ∧
      ∀ node ∈ arena.storage id, first ≤ node.index ∧ node.index ≤ id.index := by
  generalize hbound : id.index = bound
  induction bound using Nat.strongRecOn generalizing id place first with
  | ind bound ih =>
    subst hbound
    have hle := h.le
    obtain ⟨kind, hk, _, _, hf⟩ := subtree_iff.mp h
    have hbelow : ∀ place below start, (place, below) ∈ kind.places →
        arena.Subtree place start below → (arena.storage below).Nodup ∧
          ∀ node ∈ arena.storage below, start ≤ node.index ∧ node.index ≤ below.index := by
      intro place below start hm hs
      obtain ⟨_, _, _, hlt⟩ := hf.subtree hm
      exact ih below.index hlt hs rfl
    obtain ⟨hnodup, hin⟩ := hf.nodup_flatMap hbelow
    rw [ht.storage_eq hk]
    split
    · refine ⟨by simp, fun node hn => ?_⟩
      obtain rfl := List.mem_singleton.mp hn
      exact ⟨hle, Nat.le_refl _⟩
    · rcases kind.inner_cases with hnone | hperm
      · simp [hnone]
      · have hflat := hperm.flatMap_right arena.storage
        refine ⟨hflat.nodup_iff.mpr hnodup, fun node hn => ?_⟩
        have hnode := hin node (hflat.mem_iff.mp hn)
        omega

/-- No local of a function is laid out twice. -/
theorem IsTree.nodup_localsOf (ht : arena.IsTree) (function : NodeId) :
    (arena.localsOf function).Nodup := by
  unfold localsOf
  split
  · next name parameters result body hd =>
    have hk := kind?_of_definition? hd
    obtain ⟨_, _, hs⟩ := ht.exists_subtree hk
    obtain ⟨_, _, _, hbody, _, _⟩ := hs.child_of_mem hk
      (by simp [NodeKind.children, Definition.children] :
        body ∈ (NodeKind.definition (.function name parameters result body)).children)
    exact (hbody.nodup_storage ht).1
  · exact List.nodup_nil

end Arena

end Pins
