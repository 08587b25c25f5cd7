import Pins.Proofs.Lowers
import Pins.Proofs.Operands

/-!
# Adding up what lowering makes

The nodes of a task fill an interval of the tree, and the code and the chunks of a task are those of
its parts, one behind the other. A `Tally` is anything told of the code and the chunks of an
interval that can be put together from neighbouring intervals and carried over a node; then it holds
of whatever is lowered (`Tally.holds_of_lowers`).
-/

namespace Pins.Lowering

/-- The nodes that are lowered one behind the other. -/
def Task.ids : Task → List NodeId
  | expression id | definition id => [id]
  | expressions ids | definitions ids => ids

/-- The subtrees of a task fill an interval. -/
def Task.Stands (arena : Arena) (task : Task) (first last : Nat) : Prop :=
  ∃ places : List (Place × NodeId), places.map Prod.snd = task.ids ∧ arena.Forest first places last

/-- What is told of the code and the chunks that lowering makes of an interval, between two supplies
of labels, when that can be put together from the parts of the interval. -/
structure Tally (program : Program) where
  /-- What is told of an interval, the labels before, the codes, the chunks and the labels left. -/
  holds : Nat → Nat → LabelSupply → List Ir.Expr → List Chunk → LabelSupply → Prop
  /-- Where all is silent, nothing is lowered. -/
  silent : ∀ {first last labels}, first ≤ last → program.arena.Silent first last →
    holds first last labels [] [] labels
  /-- Neighbouring intervals are lowered in their order. -/
  append : ∀ {first middle last labels₁ labels₂ labels₃ codes codes' chunks chunks'},
    first ≤ middle → middle ≤ last → holds first middle labels₁ codes chunks labels₂ →
    holds middle last labels₂ codes' chunks' labels₃ →
    holds first last labels₁ (codes ++ codes') (chunks ++ chunks') labels₃
  /-- Definitions are lowered before the expression in front of them. -/
  append_back : ∀ {first middle last labels₁ labels₂ labels₃ codes chunks chunks'},
    first ≤ middle → middle ≤ last → holds middle last labels₁ [] chunks labels₂ →
    holds first middle labels₂ codes chunks' labels₃ →
    holds first last labels₁ codes (chunks ++ chunks') labels₃
  /-- An expression is lowered behind its operands. -/
  node : ∀ {first level labels₁ labels₂ labels₃ id item codes code chunks own},
    program.arena.kind? id = some (.expression item) →
    program.arena.Forest first (NodeKind.expression item).places id.index →
    Lowers program level labels₁ (.expressions item.children) codes chunks labels₂ →
    Combines program level id item codes labels₂ code own labels₃ →
    holds first id.index labels₁ codes chunks labels₂ →
    holds first (id.index + 1) labels₁ [code] (chunks ++ own) labels₃
  /-- A choice of two branches draws labels in front of its second branch. -/
  choice : ∀ {first middle labels₁ labels₂ labels₃ id condition thenBranch elseBranch test thenCode
      elseCode chunks chunks'},
    program.arena.kind? id =
      some (.expression (.conditional condition thenBranch (some elseBranch))) →
    first ≤ middle → middle ≤ id.index →
    holds first middle labels₁ [test, thenCode] chunks labels₂ →
    holds middle id.index labels₂.rest.rest [elseCode] chunks' labels₃ →
    holds first (id.index + 1) labels₁ [choiceCode labels₂ labels₃ test thenCode elseCode]
      (chunks ++ chunks') labels₃.rest
  /-- The code of a function becomes a chunk. -/
  function : ∀ {first labels₁ labels₂ id name parameters result body frame value chunks},
    program.arena.kind? id = some (.definition (.function name parameters result body)) →
    program.layout.frames.get? id = some frame → first ≤ id.index →
    Lowers program frame.level labels₁ (.expression body) [value] chunks labels₂ →
    holds first id.index labels₁ [value] chunks labels₂ →
    holds first (id.index + 1) labels₁ []
      (chunks ++ [.code frame (.move (.memory Ir.framePointer) value)]) labels₂
  /-- A variable with a label becomes a chunk. -/
  storage : ∀ {labels id name written access},
    program.arena.kind? id = some (.definition (.var name written)) →
    program.layout.accesses.get? id = some access →
    holds id.index (id.index + 1) labels [] (storageChunks access) labels

namespace Tally

variable {program : Program} (tally : Tally program) {first last level : Nat} {id : NodeId}
  {labels rest : LabelSupply} {task : Task} {codes : List Ir.Expr} {chunks : List Chunk}

/-- A silent node may stand behind an interval. -/
theorem snoc {kind : NodeKind} (hk : program.arena.kind? id = some kind)
    (hn : kind.isSilent = true)
    (hle : first ≤ id.index) (h : tally.holds first id.index labels codes chunks rest) :
    tally.holds first (id.index + 1) labels codes chunks rest := by
  have hs : tally.holds id.index (id.index + 1) rest [] [] rest :=
    tally.silent (Nat.le_succ _) (Arena.silent_of_kind hk hn)
  simpa using tally.append hle (Nat.le_succ _) h hs

/-- Parameters and written types may stand in front of an interval. -/
theorem signature {places : List (Place × NodeId)} {middle : Nat}
    (hf : program.arena.Forest first places middle)
    (hp : ∀ member ∈ places, member.1 = Place.type ∨ member.1 = Place.parameter)
    (hle : middle ≤ last) (h : tally.holds middle last labels codes chunks rest) :
    tally.holds first last labels codes chunks rest := by
  have hs : tally.holds first middle labels [] [] labels :=
    tally.silent hf.le (hf.silent hp)
  simpa using tally.append hf.le hle hs h

/-- Where one node stands, the forest below it stands in front of it. -/
theorem below {kind : NodeKind} (hk : program.arena.kind? id = some kind)
    (hs : ∃ places : List (Place × NodeId), places.map Prod.snd = [id] ∧
      program.arena.Forest first places last) :
    program.arena.Forest first kind.places id.index ∧ last = id.index + 1 := by
  obtain ⟨places, hp, hf⟩ := hs
  obtain ⟨⟨place, found⟩, rfl, rfl⟩ := List.map_eq_singleton_iff.mp hp
  obtain ⟨hsub, hl⟩ := Arena.forest_cons_iff.mp hf
  obtain ⟨kind', hk', _, _, hbelow⟩ := Arena.subtree_iff.mp hsub
  rw [hk, Option.some.injEq] at hk'
  subst hk'
  exact ⟨hbelow, (Arena.forest_nil_iff.mp hl).symm⟩

/-- A list stands where its first node and the others stand one behind the other. -/
theorem split {ids : List NodeId}
    (hs : ∃ places : List (Place × NodeId), places.map Prod.snd = id :: ids ∧
      program.arena.Forest first places last) :
    ∃ middle, first ≤ middle ∧ middle ≤ last ∧
      (Task.expression id).Stands program.arena first middle ∧
      (Task.expressions ids).Stands program.arena middle last := by
  obtain ⟨places, hp, hf⟩ := hs
  obtain ⟨⟨place, found⟩, others, rfl, rfl, rfl⟩ := List.map_eq_cons_iff.mp hp
  obtain ⟨hsub, ho⟩ := Arena.forest_cons_iff.mp hf
  have hle := hsub.le
  exact ⟨found.index + 1, by omega, ho.le, ⟨[(place, found)], rfl, hsub⟩, ⟨others, rfl, ho⟩⟩

/-- The operands of an expression stand in front of it. -/
theorem places_map {item : Expression} {code : Ir.Expr} {own : List Chunk}
    (h : Combines program level id item codes labels code own rest) :
    (NodeKind.expression item).places.map Prod.snd = item.children := by
  cases h <;> simp [NodeKind.places, Expression.children, Function.comp_def]

/-- What is told of all parts is told of whatever is lowered. -/
theorem holds_of_lowers (h : Lowers program level labels task codes chunks rest) :
    ∀ {first last : Nat}, task.Stands program.arena first last →
      tally.holds first last labels codes chunks rest := by
  induction h with
  | @node level labels₁ labels₂ labels₃ id item codes code chunks own hk hl hc ih =>
    intro first last hs
    obtain ⟨hf, rfl⟩ := below hk hs
    exact tally.node hk hf hl hc (ih ⟨_, places_map hc, hf⟩)
  | @choice level labels₁ labels₂ labels₃ id condition thenBranch elseBranch test thenCode elseCode
      chunks others hk hfront helse ihf ihe =>
    intro first last hs
    obtain ⟨hf, rfl⟩ := below hk hs
    obtain ⟨middle, hfront, helse⟩ : ∃ middle, program.arena.Forest first
        [(.expression, condition), (.expression, thenBranch)] middle ∧
        program.arena.Forest middle [(.expression, elseBranch)] id.index :=
      Arena.forest_append_iff.mp hf
    exact tally.choice hk hfront.le helse.le (ihf ⟨_, rfl, hfront⟩) (ihe ⟨_, rfl, helse⟩)
  | @whereClause level labels₁ labels₂ labels₃ id inner body members code chunks others hk hd hm hb
      ihm ihb =>
    intro first last hs
    obtain ⟨hf, rfl⟩ := below hk hs
    simp only [NodeKind.places, Arena.forest_cons_iff, Arena.forest_nil_iff] at hf
    obtain ⟨hbody, hinner, hend⟩ := hf
    have hbl := hbody.le
    have hil := hinner.le
    obtain ⟨hmembers, _⟩ := below hd ⟨_, rfl, hinner⟩
    have hlisted : tally.holds (body.index + 1) (inner.index + 1) labels₁ [] chunks labels₂ :=
      tally.snoc hd rfl hmembers.le
        (ihm ⟨_, by simp [NodeKind.places, Function.comp_def, Task.ids], hmembers⟩)
    have hwhole := tally.append_back (by omega) (by omega) hlisted (ihb ⟨_, rfl, hbody⟩)
    rw [hend] at hwhole
    exact tally.snoc hk rfl (by omega) hwhole
  | noExpressions | noDefinitions =>
    rintro first last ⟨places, hp, hf⟩
    obtain rfl : places = [] := List.map_eq_nil_iff.mp hp
    obtain rfl := Arena.forest_nil_iff.mp hf
    exact tally.silent (Nat.le_refl _) Arena.silent_refl
  | @expressions level labels₁ labels₂ labels₃ id ids code codes chunks others hf hr ihf ihr =>
    intro first last hs
    obtain ⟨middle, hl, hr, hfirst, hrest⟩ := split hs
    exact tally.append hl hr (ihf hfirst) (ihr hrest)
  | @definitions level labels₁ labels₂ labels₃ id ids chunks others hf hr ihf ihr =>
    intro first last hs
    obtain ⟨middle, hl, hr, hfirst, hrest⟩ := split hs
    exact tally.append hl hr (ihf hfirst) (ihr hrest)
  | @function level labels₁ labels₂ id result body name parameters frame value chunks hk hframe hb
      ih =>
    intro first last hs
    obtain ⟨hf, rfl⟩ := below hk hs
    obtain ⟨middle, hsignature, hbody, hend⟩ := hf.function
    have hbl := hbody.le
    have hinside := ih ⟨[(.expression, body)], rfl, hbody⟩
    rw [hend] at hinside
    exact tally.function hk hframe hf.le hb
      (tally.signature hsignature Arena.signaturePlaces_types (by omega) hinside)
  | @storage level labels id written name access hk ha =>
    intro first last hs
    obtain ⟨hf, rfl⟩ := below hk hs
    exact tally.signature hf (by simp [NodeKind.places]) (Nat.le_succ _) (tally.storage hk ha)
  | @type level labels id written name hk | @parameter level labels id written name hk =>
    intro first last hs
    obtain ⟨hf, rfl⟩ := below hk hs
    have hdefinition : tally.holds id.index id.index labels [] [] labels :=
      tally.silent (Nat.le_refl _) Arena.silent_refl
    refine tally.signature hf (by simp [NodeKind.places]) (Nat.le_succ _) ?_
    exact tally.snoc hk rfl (Nat.le_refl _) hdefinition

end Tally

end Pins.Lowering
