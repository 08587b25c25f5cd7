import Mathlib.Logic.Relation
import Mathlib.Data.Set.Basic
import Mathlib.Order.Bounds.Defs
import Pins.Proofs.Assembled
import Pins.Proofs.FrameSize
import Pins.Proofs.StaticLinks
import Pins.Proofs.Values

/-!
# All passes agree on calls

Binding and lowering know a call of a built-in routine by its name, typing by the signature of the
name, and layout by its not being bound. They mean the same calls, whatever a program defines under
these names: a call is either one of a routine in every pass or one of the function it is bound to
in every pass. The room for arguments in the frame of a function is what the largest of the calls
takes that stand in the function and in none that is nested deeper
(`Compilation.calls_agree`).
-/

namespace Pins

namespace Arena

variable {arena : Arena} {id below part owner : NodeId} {kind : NodeKind} {item : Expression}

/-- With an expression is computed what is reached from it through operands. -/
theorem IsTree.mem_own_iff (ht : arena.IsTree) (hk : arena.kind? id = some kind) :
    part ∈ arena.own id ↔
      Relation.ReflTransGen (fun above below => below ∈ arena.operands above) id part := by
  constructor
  · intro hm
    induction hn : id.index using Nat.strong_induction_on generalizing id kind with
    | _ number ih =>
      rw [ht.own_eq hk, List.mem_cons, List.mem_flatMap] at hm
      rcases hm with rfl | ⟨below, hb, hm⟩
      · exact .refl
      · obtain ⟨item, hki, hc⟩ := mem_children_of_mem_operands hb
        obtain ⟨_, _, ⟨found, hfound, _⟩, hlt⟩ := ht.exists_child hki hc
        exact .head hb (ih below.index (hn ▸ hlt) hfound hm rfl)
  · intro h
    induction h using Relation.ReflTransGen.head_induction_on generalizing kind with
    | refl => exact arena.mem_own part
    | head hb _ ih =>
      obtain ⟨item, hki, hc⟩ := mem_children_of_mem_operands hb
      obtain ⟨_, _, ⟨found, hfound, _⟩, _⟩ := ht.exists_child hki hc
      rw [ht.own_eq hki, List.mem_cons, List.mem_flatMap]
      exact .inr ⟨_, hb, ih hfound⟩

/-- An expression directly below another one is an operand of it. -/
theorem IsTree.mem_operands (ht : arena.IsTree) {other : Expression}
    (hk : arena.kind? id = some (.expression item)) (hm : below ∈ item.children)
    (hb : arena.kind? below = some (.expression other)) : below ∈ arena.operands id := by
  by_cases hw : ∃ inner body, item = .whereClause inner body
  · obtain ⟨inner, body, rfl⟩ := hw
    rw [operands_whereClause hk]
    rcases List.mem_pair.mp hm with rfl | rfl
    · have hplace : (Place.definitions, below) ∈
          (NodeKind.expression (.whereClause below body)).places := by simp [NodeKind.places]
      obtain ⟨_, found, hfound, hadmits⟩ := ht.suits hk hplace
      cases hb.symm.trans hfound
      cases hadmits
    · exact List.mem_singleton.mpr rfl
  · rw [operands_eq_children hk fun inner body he => hw ⟨inner, body, he⟩]
    exact hm

/-- Of what stands directly below a function, only its body is an expression. -/
theorem IsTree.eq_body (ht : arena.IsTree) {name : String} {parameters : List NodeId}
    {result body : NodeId}
    (hk : arena.kind? owner = some (.definition (.function name parameters result body)))
    (hm : below ∈ (NodeKind.definition (.function name parameters result body)).children)
    (hb : arena.kind? below = some (.expression item)) : below = body := by
  obtain ⟨place, hp, ⟨found, hfound, hadmits⟩, _⟩ := ht.exists_child hk hm
  cases hb.symm.trans hfound
  simp only [NodeKind.places, List.mem_append, List.mem_map, List.mem_cons, Prod.mk.injEq,
    List.not_mem_nil, or_false] at hp
  rcases hp with ⟨_, _, rfl, _⟩ | ⟨rfl, _⟩ | ⟨_, he⟩
  · cases hadmits
  · cases hadmits
  · exact he

/-- Above an expression stands a function or an expression. -/
theorem IsTree.kind_of_above (ht : arena.IsTree) (hk : arena.kind? id = some kind)
    (hf : kind.isFunction = false) (hm : below ∈ kind.children)
    (hb : arena.kind? below = some (.expression item)) : ∃ above, kind = .expression above := by
  obtain ⟨place, hp, ⟨found, hfound, hadmits⟩, _⟩ := ht.exists_child hk hm
  cases hb.symm.trans hfound
  have hplace : place ≠ .definition ∧ place ≠ .type := by
    constructor <;> rintro rfl <;> cases hadmits
  cases kind with
  | expression above => exact ⟨above, rfl⟩
  | definitions members => simp_all [NodeKind.places]
  | type written => simp_all [NodeKind.places]
  | definition definition =>
    cases definition with
    | function => cases hf
    | var | type | parameter => simp_all [NodeKind.places]

/-- The expressions that stand in a function, and in none that is nested deeper, are those computed
with its body. -/
theorem IsTree.mem_own_body_iff (ht : arena.IsTree) {name : String} {parameters : List NodeId}
    {result body : NodeId}
    (hk : arena.kind? owner = some (.definition (.function name parameters result body)))
    (hid : arena.kind? id = some (.expression item)) :
    id ∈ arena.own body ↔ arena.Encloses (some owner) id := by
  have hchild : body ∈ (NodeKind.definition (.function name parameters result body)).children := by
    simp [NodeKind.children, Definition.children]
  obtain ⟨_, _, ⟨found, hbody, _⟩, _⟩ := ht.exists_child hk hchild
  rw [ht.mem_own_iff hbody]
  constructor
  · intro h
    clear hid
    induction h with
    | refl =>
      obtain ⟨_, howner⟩ := ht.exists_encloses hk
      exact howner.ofFunction hk rfl hchild
    | tail _ hb ih =>
      obtain ⟨_, hki, hc⟩ := mem_children_of_mem_operands hb
      exact ih.ofExpression hki hc
  · intro h
    generalize he : some owner = enclosing at h
    induction h generalizing item with
    | root => cases he
    | @child outer above below kind _ hka hm ih =>
      cases hf : kind.isFunction with
      | true =>
        rw [NodeKind.scope_function hf] at he
        cases he
        cases hk.symm.trans hka
        rw [ht.eq_body hk hm hid]
      | false =>
        rw [NodeKind.scope_other hf] at he
        obtain ⟨item', rfl⟩ := ht.kind_of_above hka hf hm hid
        exact (ih hka he).tail (ht.mem_operands hka hm hid)

end Arena

/-- A value is handed over in a word, an array by its address. -/
theorem Ty.argumentSize?_of_isValue {type : Ty} (h : type.isValue = true) :
    type.argumentSize? = some wordSize := by
  cases type <;> first | rfl | cases h

namespace Layout

variable {arena : Arena} {bindings : NodeTable NodeId} {types : NodeTable Ty} {id : NodeId}
  {sizes : List Nat}

/-- Values take as many words as there are. -/
theorem bytes_of_isValue {ids : List NodeId}
    (h : ∀ id ∈ ids, ∃ type, types.get? id = some type ∧ type.isValue = true) :
    bytes types Ty.argumentSize? ids = wordSize * ids.length := by
  induction ids with
  | nil => rfl
  | cons id others ih =>
    obtain ⟨type, ht, hv⟩ := h id List.mem_cons_self
    have hothers := ih fun other hm => h other (List.mem_cons_of_mem _ hm)
    rw [bytes_cons, hothers, ht, Option.bind_some, Ty.argumentSize?_of_isValue hv, Option.getD_some,
      List.length_cons, Nat.mul_succ, Nat.add_comm]

/-- No size of a list is larger than the largest. -/
theorem le_largest {size : Nat} (hm : size ∈ sizes) : size ≤ largest sizes := by
  induction sizes with
  | nil => cases hm
  | cons first others ih =>
    rw [largest_cons]
    rcases List.mem_cons.mp hm with rfl | hm
    · exact Nat.le_max_left _ _
    · exact (ih hm).trans (Nat.le_max_right _ _)

/-- The largest size of a list is one of it, unless it is 0. -/
theorem largest_mem (h : largest sizes ≠ 0) : largest sizes ∈ sizes := by
  induction sizes with
  | nil => exact absurd rfl h
  | cons first others ih =>
    rw [largest_cons] at h ⊢
    rcases Nat.le_total (largest others) first with hle | hle
    · rw [Nat.max_eq_left hle]
      exact List.mem_cons_self
    · rw [Nat.max_eq_right hle] at h ⊢
      exact List.mem_cons_of_mem _ (ih h)

/-- Only calls hand something over. -/
theorem exists_call_of_handed (h : handed arena bindings types id ≠ 0) :
    ∃ callee arguments, arena.kind? id = some (.expression (.call callee arguments)) := by
  unfold handed at h
  split at h
  · next callee arguments he => exact ⟨callee, arguments, Arena.kind?_of_expression? he⟩
  · exact absurd rfl h

end Layout

namespace Compilation

open Lowering (KeepsAll linkToCallee)

variable {file source callee : String} {compilation : Compilation} {id function : NodeId}
  {arguments : List NodeId}

/-- What the passes make of a call of a built-in routine. -/
structure RoutineCall (compilation : Compilation) (id : NodeId) (callee : String)
    (arguments : List NodeId) : Prop where
  /-- It is bound to no definition. -/
  unbound : compilation.program.bindings.get? id = none
  /-- The arguments have the types of the parameters of the signature, and the call has that of its
  result. -/
  typed : ∃ parameters result, Builtin.signature? callee = some (.function parameters result) ∧
    arguments.map compilation.program.types.get? = parameters.map some ∧
      compilation.program.types.get? id = some result
  /-- It is lowered to a call of the name, without a static link. -/
  lowered : ∃ codes, KeepsAll compilation.trees arguments codes ∧
    compilation.trees.get? id = some (.expr (.call (.named callee) (.constant 0 :: codes)))

/-- What the passes make of a call of a function. -/
structure FunctionCall (compilation : Compilation) (id : NodeId) (callee : String)
    (arguments : List NodeId) (function : NodeId) : Prop where
  /-- No routine has a signature under the name. -/
  unlisted : Builtin.signature? callee = none
  /-- It is bound to the function. -/
  bound : compilation.program.bindings.get? id = some function
  /-- The function is one. -/
  defined : (compilation.program.arena.kind? function).any NodeKind.isFunction = true
  /-- The arguments have the types of the parameters of the function, and the call has that of its
  result. -/
  typed : ∃ parameters result,
    compilation.program.types.get? function = some (.function parameters result) ∧
      arguments.map compilation.program.types.get? = parameters.map some ∧
        compilation.program.types.get? id = some result
  /-- It is lowered to a call of the label of the function, behind a move of the frame pointer to
  the word of memory that the offset for it in the frame of the function, subtracted from the stack
  pointer, leads to. -/
  lowered : ∃ frame outer level codes,
    compilation.program.layout.frames.get? function = some frame ∧
      compilation.program.arena.Encloses outer id ∧ compilation.program.arena.Level outer level ∧
        KeepsAll compilation.trees arguments codes ∧
          compilation.trees.get? id = some (.expr (.eseq
            (.move (.memory (.binop .sub (.name (.named "\x7bSP\x7d"))
              (.constant frame.oldFramePointerOffset))) (.name (.named "\x7bFP\x7d")))
            (.call frame.label (linkToCallee level frame.level :: codes))))

/-- The bytes that a call hands over: a word for each argument, and one for the static link unless
it is a call of a routine. -/
def argumentArea (callee : String) (arguments : List NodeId) : Nat :=
  wordSize * arguments.length + if Builtin.isRoutine callee then 0 else wordSize

/-- The bytes handed over by the calls that stand in a function and in none that is nested
deeper. -/
def argumentAreas (arena : Arena) (function : NodeId) : Set Nat :=
  {size | ∃ id callee arguments, arena.Encloses (some function) id ∧
    arena.kind? id = some (.expression (.call callee arguments)) ∧
      size = argumentArea callee arguments}

/-- The room for arguments in the frame of a function is the largest area of its calls, or none if
it has no calls. -/
def RoomRight (compilation : Compilation) (function : NodeId) (frame : Frame) : Prop :=
  IsGreatest (argumentAreas compilation.program.arena function) frame.outgoingSize ∨
    argumentAreas compilation.program.arena function = ∅ ∧ frame.outgoingSize = 0

/-- A call has the type of the result of the signature of its name, or else of the function it is
bound to, and its arguments have the types of the parameters. -/
theorem exists_signature (h : ofSource file source = .ok compilation)
    (hk : compilation.program.arena.kind? id = some (.expression (.call callee arguments))) :
    ∃ parameters result, (Builtin.signature? callee = some (.function parameters result) ∨
        Builtin.signature? callee = none ∧ ∃ target,
          compilation.program.bindings.get? id = some target ∧
            compilation.program.types.get? target = some (.function parameters result)) ∧
      arguments.map compilation.program.types.get? = parameters.map some ∧
        compilation.program.types.get? id = some result := by
  have ht := (ofSource_prepared h).typed
  obtain ⟨type, hf⟩ := Option.isSome_iff_exists.mp (ht.total hk rfl)
  obtain ⟨types, hs, hlength, harguments⟩ := (ht.sound hf).derives hk
  refine ⟨types, type, hs.imp_right fun ⟨hn, target, hb, htarget⟩ =>
    ⟨hn, target, hb, ht.get?_eq_some_iff.mpr htarget⟩, ?_, hf⟩
  refine List.ext_getElem (by simp [hlength]) fun index hi hi' => ?_
  simp only [List.length_map] at hi hi'
  have hentry : (arguments[index], types[index]) ∈ arguments.zip types :=
    List.mem_iff_getElem.mpr ⟨index, by simp; omega, by simp⟩
  simpa using ht.get?_eq_some_iff.mpr (harguments _ hentry)

/-- A call of the name of a routine is one of the routine in every pass. -/
theorem routineCall (h : ofSource file source = .ok compilation)
    (hk : compilation.program.arena.kind? id = some (.expression (.call callee arguments)))
    (hr : Builtin.isRoutine callee = true) : RoutineCall compilation id callee arguments where
  unbound := by
    have hright := (ofSource_prepared h).bound id (Arena.index_lt_size hk)
    simpa [Binding.BoundRight, hk, NodeKind.accepted?, hr] using hright
  typed := by
    obtain ⟨parameters, result, hs | ⟨hn, _⟩, htyped⟩ := exists_signature h hk
    · exact ⟨parameters, result, hs, htyped⟩
    · have hroutine := Builtin.isSome_signature? callee
      rw [hn, hr] at hroutine
      cases hroutine
  lowered := by
    obtain ⟨code, _, _, _, codes, _, _, hcode, _, _, hall, hcombines⟩ := exists_assembled h hk rfl
    cases hcombines with
    | routine => exact ⟨codes, hall, hcode⟩
    | call hr' => cases hr.symm.trans hr'

/-- A call of any other name is one of the function it is bound to in every pass. -/
theorem exists_functionCall (h : ofSource file source = .ok compilation)
    (hk : compilation.program.arena.kind? id = some (.expression (.call callee arguments)))
    (hr : Builtin.isRoutine callee = false) :
    ∃ function, FunctionCall compilation id callee arguments function := by
  have hn : Builtin.signature? callee = none := by
    have hroutine := Builtin.isSome_signature? callee
    rwa [hr, Option.isSome_eq_false_iff, Option.isNone_iff_eq_none] at hroutine
  obtain ⟨code, outer, level, _, codes, _, _, hcode, he, hl, hall, hcombines⟩ :=
    exists_assembled h hk rfl
  cases hcombines with
  | routine hr' => cases hr.symm.trans hr'
  | @call _ _ _ function _ _ _ hb hf =>
    refine ⟨function, hn, hb, (ofSource_prepared h).isFunction_of_call hk hr hb, ?_,
      _, outer, level, codes, hf, he, hl, hall, hcode⟩
    obtain ⟨parameters, result, hs | ⟨_, target, hb', htarget⟩, htyped⟩ := exists_signature h hk
    · cases hn.symm.trans hs
    · cases hb.symm.trans hb'
      exact ⟨parameters, result, htarget, htyped⟩

/-- What layout takes a call to hand over is its area. -/
theorem handed_eq (h : ofSource file source = .ok compilation)
    (hk : compilation.program.arena.kind? id = some (.expression (.call callee arguments))) :
    Layout.handed compilation.program.arena compilation.program.bindings compilation.program.types
      id = argumentArea callee arguments := by
  have hp := ofSource_prepared h
  have hvalues : ∀ argument ∈ arguments, ∃ type,
      compilation.program.types.get? argument = some type ∧ type.isValue = true := by
    intro argument hm
    obtain ⟨type, htype, hv⟩ :=
      Typing.exists_isValue_of_taken hp.tree hp.bound hp.typed.wellTyped hk hm
    exact ⟨type, hp.typed.get?_eq_some_iff.mpr htype, hv⟩
  rw [Layout.handed, Arena.expression?_of_kind? hk]
  dsimp only
  rw [Layout.bytes_of_isValue hvalues, Nat.add_comm, argumentArea, NodeTable.contains]
  cases hr : Builtin.isRoutine callee with
  | true => simp [(routineCall h hk hr).unbound]
  | false =>
    obtain ⟨function, hcall⟩ := exists_functionCall h hk hr
    simp [hcall.bound]

/-- A frame has room for the largest list of arguments that is handed over with the body of its
function. -/
theorem outgoing_eq (h : ofSource file source = .ok compilation) {frame : Frame}
    (hf : compilation.program.layout.frames.get? function = some frame) :
    frame.outgoingSize = Layout.largest ((compilation.program.arena.ownOf function).map
      (Layout.handed compilation.program.arena compilation.program.bindings
        compilation.program.types)) := by
  obtain ⟨_, arena, _, hparse, ha⟩ := ofSource_eq_ok h
  obtain ⟨bindings, types, layout, labels, _, _, hl, _, he⟩ := ofArena_eq_ok ha
  rw [he] at hf ⊢
  exact Layout.ofArena_outgoing (parse_isTree hparse) hl hf

/-- Every function has a frame with room for the arguments of its calls. -/
theorem exists_roomRight (h : ofSource file source = .ok compilation) {name : String}
    {parameters : List NodeId} {result body : NodeId}
    (hk : compilation.program.arena.kind? function =
      some (.definition (.function name parameters result body))) :
    ∃ frame, compilation.program.layout.frames.get? function = some frame ∧
      RoomRight compilation function frame := by
  have hp := ofSource_prepared h
  have hfunction : (compilation.program.arena.kind? function).any NodeKind.isFunction = true := by
    rw [hk]
    rfl
  obtain ⟨frame, hframe⟩ := hp.laidOut.exists_frame hfunction
  refine ⟨frame, hframe, ?_⟩
  have hown : compilation.program.arena.ownOf function = compilation.program.arena.own body := by
    simp [Arena.ownOf, Arena.definition?, hk]
  have hsize := outgoing_eq h hframe
  rw [hown] at hsize
  -- what is handed over with the body is the areas of the calls, and nothing
  have harea : ∀ size, size ∈ argumentAreas compilation.program.arena function →
      size ≤ frame.outgoingSize := by
    rintro size ⟨id, callee, arguments, he, hid, rfl⟩
    rw [hsize, ← handed_eq h hid]
    exact Layout.le_largest (List.mem_map_of_mem ((hp.tree.mem_own_body_iff hk hid).mpr he))
  have hreached : frame.outgoingSize ≠ 0 →
      frame.outgoingSize ∈ argumentAreas compilation.program.arena function := by
    intro hn
    rw [hsize] at hn ⊢
    obtain ⟨id, hm, hhanded⟩ := List.mem_map.mp (Layout.largest_mem hn)
    rw [← hhanded] at hn ⊢
    obtain ⟨callee, arguments, hid⟩ := Layout.exists_call_of_handed hn
    exact ⟨id, callee, arguments, (hp.tree.mem_own_body_iff hk hid).mp hm, hid, handed_eq h hid⟩
  rcases Set.eq_empty_or_nonempty (argumentAreas compilation.program.arena function) with
    hnone | ⟨size, hm⟩
  · refine .inr ⟨hnone, ?_⟩
    by_contra hn
    rw [hnone] at hreached
    exact hreached hn
  · refine .inl ⟨?_, harea⟩
    by_cases hn : frame.outgoingSize = 0
    · obtain rfl : size = 0 := Nat.le_zero.mp (hn ▸ harea size hm)
      exact hn ▸ hm
    · exact hreached hn

/-- In a source that compiles, every call is one of a built-in routine for all passes, or one of a
function for all passes, as its name is that of a routine or not. Every function has a frame with
room for the largest area of the calls that stand in it and in no deeper function. -/
theorem calls_agree (h : ofSource file source = .ok compilation) :
    (∀ id callee arguments,
      compilation.program.arena.kind? id = some (.expression (.call callee arguments)) →
        Builtin.isRoutine callee = true ∧ RoutineCall compilation id callee arguments ∨
          Builtin.isRoutine callee = false ∧
            ∃ function, FunctionCall compilation id callee arguments function) ∧
    ∀ function name parameters result body, compilation.program.arena.kind? function =
        some (.definition (.function name parameters result body)) →
      ∃ frame, compilation.program.layout.frames.get? function = some frame ∧
        RoomRight compilation function frame := by
  refine ⟨fun id callee arguments hk => ?_,
    fun function name parameters result body => exists_roomRight h⟩
  cases hr : Builtin.isRoutine callee with
  | true => exact .inl ⟨rfl, routineCall h hk hr⟩
  | false => exact .inr ⟨rfl, exists_functionCall h hk hr⟩

/-- A function with the name of a routine calls the routine, and another function that calls
nothing. -/
theorem calls_agree_of_routine_name : ∃ compilation, ofSource "test" ("fun seed(n: integer): " ++
      "integer = rand_int(seed(n), f(n)); fun f(n: integer): integer = n") = .ok compilation ∧
    RoutineCall compilation ⟨4⟩ "seed" [⟨3⟩] ∧ FunctionCall compilation ⟨6⟩ "f" [⟨5⟩] ⟨13⟩ ∧
    ∃ frame, compilation.program.layout.frames.get? ⟨8⟩ = some frame ∧
      RoomRight compilation ⟨8⟩ frame := by
  obtain ⟨compilation, h, hseed, hf, hb, hk⟩ : ∃ compilation, ofSource "test"
      ("fun seed(n: integer): " ++
        "integer = rand_int(seed(n), f(n)); fun f(n: integer): integer = n") = .ok compilation ∧
      compilation.program.arena.kind? ⟨4⟩ = some (.expression (.call "seed" [⟨3⟩])) ∧
      compilation.program.arena.kind? ⟨6⟩ = some (.expression (.call "f" [⟨5⟩])) ∧
      compilation.program.bindings.get? ⟨6⟩ = some ⟨13⟩ ∧
      compilation.program.arena.kind? ⟨8⟩ =
        some (.definition (.function "seed" [⟨1⟩] ⟨2⟩ ⟨7⟩)) :=
    exists_of_any (by decide +kernel)
  obtain ⟨hcalls, hfunctions⟩ := calls_agree h
  refine ⟨compilation, h, ?_, ?_, hfunctions ⟨8⟩ _ _ _ _ hk⟩
  · obtain ⟨_, hroutine⟩ | ⟨hr, _⟩ := hcalls ⟨4⟩ "seed" [⟨3⟩] hseed
    · exact hroutine
    · cases hr
  · obtain ⟨hr, _⟩ | ⟨_, function, hcall⟩ := hcalls ⟨6⟩ "f" [⟨5⟩] hf
    · cases hr
    · cases hb.symm.trans hcall.bound
      exact hcall

end Compilation

end Pins
