import Mathlib.Data.List.Forall2
import Pins.Proofs.Site

/-!
# Lowered code means what the program means

The code of an expression without calls, strings and arrays computes exactly what the expression
evaluates to, and leaves a memory that keeps the store which evaluation leaves: whatever the code
computes is a value of the expression, and whenever the expression has a value, the code computes
it. There is a lemma for each form of expression, and lowering puts them together
(`Lowering.Lowers.agrees`).

Logical values are 0 and 1 only, so conjunctions and disjunctions of bits are those of truth values,
and a negation is the difference from 1.
-/

namespace Pins

open Typing (HasType)
open Ir (Computes Executes Memory Reaches Straight Tests)

/-- An operation of code has the value that it has in the program. -/
theorem Ir.Operator.apply?_of_ofBinary? {operator : BinaryOperator} {computed : Ir.Operator}
    {first second : Int32} (ho : Ir.Operator.ofBinary? operator = some computed)
    (ht : operator = .or ∨ operator = .and → IsTruth first ∧ IsTruth second) :
    computed.apply? first second = operator.apply? first second := by
  cases operator with
  | index | assign => cases ho
  | or =>
    cases ho
    obtain ⟨rfl | rfl, rfl | rfl⟩ := ht (.inl rfl) <;> rfl
  | and =>
    cases ho
    obtain ⟨rfl | rfl, rfl | rfl⟩ := ht (.inr rfl) <;> rfl
  | eq | neq | lt | gt | leq | geq | add | sub | mul | div | mod =>
    cases ho
    rfl

/-- What has elements is an array. -/
theorem Ty.isArray_of_element? {type element : Ty} (h : type.element? = some element) :
    type.isArray = true := by
  cases type <;> first | rfl | cases h

/-- The value of a choice or a loop is 0, behind its statements. -/
theorem Lowering.computes_zeroAfter_iff {address : Label → Int32} {statements : List Ir.Stmt}
    {before after : Memory} {value : Int32} :
    Computes address (zeroAfter statements) before value after ↔
      value = 0 ∧ Reaches address statements statements before after := by
  rw [zeroAfter, Ir.computes_eseq_iff]
  simp only [Ir.computes_constant_iff, Ir.executes_seq_iff]
  constructor
  · rintro ⟨between, hr, rfl, rfl⟩
    exact ⟨rfl, hr⟩
  · rintro ⟨rfl, hr⟩
    exact ⟨after, hr, rfl, rfl⟩

/-- A step that has no result. -/
abbrev Resultless {σ : Type} (step : σ → σ → Prop) : σ → Unit → σ → Prop :=
  fun before _ after => step before after

namespace Site

variable {site : Site} {frame : Frame} {id : NodeId} {code : Ir.Expr} {cell : Cell site.Scope}

namespace Follows

variable {α : Type} {run run' : Memory → α → Memory → Prop}
  {meant meant' : Store site.Scope → α → Store site.Scope → Prop}
  {test : Memory → Bool → Memory → Prop}
  {test' : Store site.Scope → Bool → Store site.Scope → Prop}
  {step first second round : Memory → Memory → Prop}
  {step' first' second' round' : Store site.Scope → Store site.Scope → Prop}
  {before after : Memory} {store : Store site.Scope}

/-- Steps may be described in another way. -/
theorem congr (h : site.Follows run meant)
    (hr : ∀ {before result after}, run' before result after ↔ run before result after)
    (hm : ∀ {before result after}, meant' before result after ↔ meant before result after) :
    site.Follows run' meant' := by
  constructor
  · intro before result after hs hrun
    rw [hm]
    exact h.sound hs (hr.mp hrun)
  · intro before result store hs hmeant
    obtain ⟨after, hrun, hafter⟩ := h.complete hs (hm.mp hmeant)
    exact ⟨after, hr.mpr hrun, hafter⟩

/-- What a step without a result does is meant. -/
theorem sound_step (h : site.Follows (Resultless step) (Resultless step'))
    (hs : site.Sane before) (hx : step before after) :
    step' (site.view before) (site.view after) ∧ site.Sane after :=
  h.sound hs (show Resultless step before () after from hx)

/-- What is meant by a step without a result is done. -/
theorem complete_step (h : site.Follows (Resultless step) (Resultless step'))
    (hs : site.Sane before) (hx : step' (site.view before) store) :
    ∃ after, step before after ∧ site.view after = store ∧ site.Sane after :=
  h.complete hs (show Resultless step' (site.view before) () store from hx)

/-- Nothing is done where nothing is meant. -/
theorem skip : site.Follows (Resultless fun before after => after = before)
    (Resultless fun before after => after = before) := by
  constructor
  · rintro before _ after hs rfl
    exact ⟨rfl, hs⟩
  · rintro before _ store hs rfl
    exact ⟨before, rfl, rfl, hs⟩

/-- Steps that follow each other may be done one behind the other. -/
theorem andThen (hf : site.Follows (Resultless first) (Resultless first'))
    (hs : site.Follows (Resultless second) (Resultless second')) :
    site.Follows
      (Resultless fun before after =>
        ∃ between, first before between ∧ second between after)
      (Resultless fun before after =>
        ∃ between, first' before between ∧ second' between after) := by
  constructor
  · rintro before _ after hsane ⟨between, hfirst, hsecond⟩
    obtain ⟨hfirst', hsane'⟩ := hf.sound_step hsane hfirst
    obtain ⟨hsecond', hsane''⟩ := hs.sound_step hsane' hsecond
    exact ⟨⟨_, hfirst', hsecond'⟩, hsane''⟩
  · rintro before _ store hsane ⟨between, hfirst, hsecond⟩
    obtain ⟨stepped, hfirst', rfl, hsane'⟩ := hf.complete_step hsane hfirst
    obtain ⟨after, hsecond', hafter⟩ := hs.complete_step hsane' hsecond
    exact ⟨after, ⟨stepped, hfirst', hsecond'⟩, hafter⟩

/-- Choices follow each other, if their tests and both sides do. -/
theorem choose (ht : site.Follows test test')
    (hf : site.Follows (Resultless first) (Resultless first'))
    (hs : site.Follows (Resultless second) (Resultless second')) :
    site.Follows
      (Resultless fun before after => ∃ holds between, test before holds between ∧
        (if holds then first else second) between after)
      (Resultless fun before after => ∃ holds between, test' before holds between ∧
        (if holds then first' else second') between after) := by
  constructor
  · rintro before _ after hsane ⟨holds, between, htest, hside⟩
    obtain ⟨htest', hsane'⟩ := ht.sound hsane htest
    cases holds with
    | true =>
      obtain ⟨hside', hsane''⟩ := hf.sound_step hsane' hside
      exact ⟨⟨true, _, htest', hside'⟩, hsane''⟩
    | false =>
      obtain ⟨hside', hsane''⟩ := hs.sound_step hsane' hside
      exact ⟨⟨false, _, htest', hside'⟩, hsane''⟩
  · rintro before _ store hsane ⟨holds, between, htest, hside⟩
    obtain ⟨tested, htest', rfl, hsane'⟩ := ht.complete hsane htest
    cases holds with
    | true =>
      obtain ⟨after, hside', hafter⟩ := hf.complete_step hsane' hside
      exact ⟨after, ⟨true, tested, htest', hside'⟩, hafter⟩
    | false =>
      obtain ⟨after, hside', hafter⟩ := hs.complete_step hsane' hside
      exact ⟨after, ⟨false, tested, htest', hside'⟩, hafter⟩

/-- Loops follow each other, if their tests and rounds do. -/
theorem rounds (ht : site.Follows test test')
    (hr : site.Follows (Resultless round) (Resultless round')) :
    site.Follows (Resultless (Rounds test round)) (Resultless (Rounds test' round')) := by
  constructor
  · intro before _ after hs hrounds
    exact hrounds.map ht.sound hr.sound_step hs
  · intro before _ store hs hrounds
    exact hrounds.lift ht.complete hr.complete_step rfl hs

end Follows

namespace Agrees

/-- Code that agrees with a condition finds what the condition finds. -/
theorem tests (h : site.Agrees id code) :
    site.Follows (Tests site.address code)
      (Decides site.program.arena site.program.bindings id) := by
  constructor
  · rintro before _ after hs ⟨value, hc, rfl⟩
    obtain ⟨hy, hsane⟩ := h.sound hs hc
    exact ⟨⟨value, hy, rfl⟩, hsane⟩
  · rintro before _ store hs ⟨value, hy, rfl⟩
    obtain ⟨after, hc, hafter⟩ := h.complete hs hy
    exact ⟨after, ⟨value, hc, rfl⟩, hafter⟩

/-- Code that agrees with an expression has its effects. -/
theorem performs (h : site.Agrees id code) :
    site.Follows
      (Resultless fun before after => Executes site.address (.exp code) before none after)
      (Resultless (Performs site.program.arena site.program.bindings id)) := by
  constructor
  · rintro before _ after hs hx
    obtain ⟨value, hc⟩ := Ir.executes_exp_iff.mp hx
    obtain ⟨hy, hsane⟩ := h.sound hs hc
    exact ⟨⟨value, hy⟩, hsane⟩
  · rintro before _ store hs ⟨value, hy⟩
    obtain ⟨after, hc, hafter⟩ := h.complete hs hy
    exact ⟨after, Ir.executes_exp_iff.mpr ⟨value, hc⟩, hafter⟩

/-- A choice or a loop agrees with its code, if its statements do what its rules ask. -/
theorem zeroAfter {item : Expression} {statements : List Ir.Stmt} {run : Memory → Memory → Prop}
    {meant : Store site.Scope → Store site.Scope → Prop}
    (hk : site.program.arena.kind? id = some (.expression item))
    (hm : ∀ {before value after}, item.Means site.program.arena site.program.bindings id before
      value after ↔ value = 0 ∧ meant before after)
    (hf : site.Follows (Resultless run) (Resultless meant))
    (hr : ∀ {before after}, Reaches site.address statements statements before after ↔
      run before after) : site.Agrees id (Lowering.zeroAfter statements) := by
  constructor
  · intro before value after hs hc
    obtain ⟨rfl, hreaches⟩ := Lowering.computes_zeroAfter_iff.mp hc
    obtain ⟨hmeant, hsane⟩ := hf.sound_step hs (hr.mp hreaches)
    exact ⟨(yields_iff hk).mpr (hm.mpr ⟨rfl, hmeant⟩), hsane⟩
  · intro before value store hs hy
    obtain ⟨rfl, hmeant⟩ := hm.mp ((yields_iff hk).mp hy)
    obtain ⟨after, hrun, hafter⟩ := hf.complete_step hs hmeant
    exact ⟨after, Lowering.computes_zeroAfter_iff.mpr ⟨rfl, hr.mpr hrun⟩, hafter⟩

/-- A choice of one branch jumps behind it if the condition does not hold. -/
theorem conditional {condition thenBranch : NodeId} {test thenCode : Ir.Expr}
    (labels : LabelSupply)
    (hk : site.program.arena.kind? id =
      some (.expression (.conditional condition thenBranch none)))
    (hc : site.Agrees condition test) (ht : site.Agrees thenBranch thenCode) :
    site.Agrees id (Lowering.zeroAfter [.cjump test labels.label labels.rest.label,
      .label labels.label, .exp thenCode, .label labels.rest.label]) := by
  refine zeroAfter hk Iff.rfl (hc.tests.choose ht.performs .skip) ?_
  intro before after
  have hend : labels.label ≠ labels.rest.label := LabelSupply.label_ne_of_lt (by simp)
  generalize hall : ([.cjump test labels.label labels.rest.label, .label labels.label,
    .exp thenCode, .label labels.rest.label] : List Ir.Stmt) = all
  have hthen : Ir.behind? labels.label all =
      some [.exp thenCode, .label labels.rest.label] := by
    simp [← hall, Ir.behind?]
  have hdone : Ir.behind? labels.rest.label all = some [] := by
    simp [← hall, Ir.behind?, hend]
  rw [← hall, Ir.reaches_cjump_iff (hall ▸ hthen) (hall ▸ hdone), hall]
  refine exists_congr fun holds => exists_congr fun between => and_congr_right fun _ => ?_
  cases holds with
  | true =>
    rw [if_pos rfl, if_pos rfl, Ir.reaches_cons_iff rfl]
    simp [Ir.reaches_label_iff, Ir.reaches_nil_iff]
  | false => exact Ir.reaches_nil_iff

/-- A choice of two branches jumps over the other one. -/
theorem choice {condition thenBranch elseBranch : NodeId} {test thenCode elseCode : Ir.Expr}
    {labels rest : LabelSupply} (hle : labels.rest.rest.next ≤ rest.next)
    (hk : site.program.arena.kind? id =
      some (.expression (.conditional condition thenBranch (some elseBranch))))
    (hc : site.Agrees condition test) (ht : site.Agrees thenBranch thenCode)
    (he : site.Agrees elseBranch elseCode) :
    site.Agrees id (Lowering.choiceCode labels rest test thenCode elseCode) := by
  refine zeroAfter hk Iff.rfl (hc.tests.choose ht.performs he.performs) ?_
  intro before after
  -- the label of the second branch is drawn behind the two others
  simp only [LabelSupply.next_rest] at hle
  have hend : labels.label ≠ labels.rest.label := LabelSupply.label_ne_of_lt (by simp)
  have helse : labels.label ≠ rest.label := LabelSupply.label_ne_of_lt (by omega)
  have hboth : rest.label ≠ labels.rest.label :=
    (LabelSupply.label_ne_of_lt (by simp only [LabelSupply.next_rest]; omega)).symm
  generalize hall : ([.cjump test labels.label rest.label, .label labels.label, .exp thenCode,
    .jump labels.rest.label, .label rest.label, .exp elseCode,
    .label labels.rest.label] : List Ir.Stmt) = all
  have hthen : Ir.behind? labels.label all = some [.exp thenCode, .jump labels.rest.label,
      .label rest.label, .exp elseCode, .label labels.rest.label] := by
    simp [← hall, Ir.behind?]
  have hother : Ir.behind? rest.label all = some [.exp elseCode, .label labels.rest.label] := by
    simp [← hall, Ir.behind?, helse]
  have hdone : Ir.behind? labels.rest.label all = some [] := by
    simp [← hall, Ir.behind?, hend, hboth]
  rw [← hall, Ir.reaches_cjump_iff (hall ▸ hthen) (hall ▸ hother), hall]
  refine exists_congr fun holds => exists_congr fun between => and_congr_right fun _ => ?_
  cases holds with
  | true =>
    rw [if_pos rfl, if_pos rfl, Ir.reaches_cons_iff rfl]
    simp [Ir.reaches_jump_iff hdone, Ir.reaches_nil_iff]
  | false =>
    rw [if_neg Bool.false_ne_true, if_neg Bool.false_ne_true, Ir.reaches_cons_iff rfl]
    simp [Ir.reaches_label_iff, Ir.reaches_nil_iff]

/-- A loop agrees with its code, if what is done first, its tests and its rounds do what its rules
ask. -/
theorem loop {item : Expression} {front stretch : List Ir.Stmt} {test : Ir.Expr}
    {first round : Store site.Scope → Store site.Scope → Prop}
    {tests : Store site.Scope → Bool → Store site.Scope → Prop} (labels : LabelSupply)
    (hk : site.program.arena.kind? id = some (.expression item))
    (hm : ∀ {before value after}, item.Means site.program.arena site.program.bindings id before
      value after ↔ value = 0 ∧ ∃ between, first before between ∧ Rounds tests round between after)
    (hstraight : ∀ statement ∈ front ++ stretch, statement.isStraight = true)
    (hf : site.Follows (Resultless (Straight site.address front)) (Resultless first))
    (ht : site.Follows (Tests site.address test) tests)
    (hr : site.Follows (Resultless (Straight site.address stretch)) (Resultless round)) :
    site.Agrees id (Lowering.zeroAfter (Ir.loopStatements front stretch test labels.label
      labels.rest.label labels.rest.rest.label)) := by
  rw [List.forall_mem_append] at hstraight
  refine zeroAfter hk hm (hf.andThen (ht.rounds hr)) (Ir.reaches_loop_iff hstraight.1 hstraight.2
    ?_ ?_ ?_)
  all_goals
    refine LabelSupply.label_ne_of_lt ?_
    simp +arith

/-- A loop under a condition tests before every round. -/
theorem whileLoop {condition body : NodeId} {test bodyCode : Ir.Expr} (labels : LabelSupply)
    (hk : site.program.arena.kind? id = some (.expression (.whileLoop condition body)))
    (hc : site.Agrees condition test) (hb : site.Agrees body bodyCode) :
    site.Agrees id (Lowering.zeroAfter [.label labels.label,
      .cjump test labels.rest.label labels.rest.rest.label, .label labels.rest.label,
      .exp bodyCode, .jump labels.label, .label labels.rest.rest.label]) := by
  have hfront : site.Follows (Resultless (Straight site.address []))
      (Resultless fun before after => after = before) :=
    Follows.skip.congr Ir.straight_nil_iff Iff.rfl
  have hround : site.Follows (Resultless (Straight site.address [.exp bodyCode]))
      (Resultless (Performs site.program.arena site.program.bindings body)) :=
    hb.performs.congr (by simp [Ir.straight_cons_iff, Ir.straight_nil_iff]) Iff.rfl
  exact loop labels hk (by simp [Expression.Means]) (by simp [Ir.Stmt.isStraight]) hfront hc.tests
    hround

/-- The expressions of a sequence are computed one behind the other, the last one for its value. -/
theorem sequence {codes : List Ir.Expr} {last : Ir.Expr} {ids : List NodeId}
    (h : List.Forall₂ site.Agrees ids (codes ++ [last])) :
    site.Follows
      (fun before value after => ∃ between, Straight site.address (codes.map .exp) before between ∧
        Computes site.address last between value after)
      (Evaluates site.program.arena site.program.bindings site.Scope (.sequence ids)) := by
  induction codes generalizing ids with
  | nil =>
    obtain ⟨id, rfl, hlast⟩ : ∃ id, ids = [id] ∧ site.Agrees id last := by
      cases h with
      | cons hlast hnil =>
        cases hnil
        exact ⟨_, rfl, hlast⟩
    exact hlast.congr (by simp [Ir.straight_nil_iff]) evaluates_last_iff
  | cons code codes ih =>
    cases h with
    | @cons id _ ids _ hfirst hrest =>
      have hn : ids ≠ [] := by
        rintro rfl
        cases codes <;> cases hrest
      constructor
      · rintro before value after hs ⟨between, hstraight, hc⟩
        obtain ⟨stepped, hx, hstraight'⟩ := Ir.straight_cons_iff.mp hstraight
        obtain ⟨hperforms, hsane⟩ := hfirst.performs.sound_step hs hx
        obtain ⟨hevaluates, hsane'⟩ := (ih hrest).sound hsane ⟨between, hstraight', hc⟩
        exact ⟨(evaluates_front_iff hn).mpr ⟨_, hperforms, hevaluates⟩, hsane'⟩
      · intro before value store hs hy
        obtain ⟨seen, hperforms, hevaluates⟩ := (evaluates_front_iff hn).mp hy
        obtain ⟨stepped, hx, rfl, hsane⟩ := hfirst.performs.complete_step hs hperforms
        obtain ⟨after, ⟨between, hstraight, hc⟩, hafter⟩ := (ih hrest).complete hsane hevaluates
        exact ⟨after, ⟨between, Ir.straight_cons_iff.mpr ⟨stepped, hx, hstraight⟩, hc⟩, hafter⟩

/-- A block computes its expressions in their order. -/
theorem block {ids : List NodeId} {codes : List Ir.Expr} {last : Ir.Expr}
    (hk : site.program.arena.kind? id = some (.expression (.block ids)))
    (h : List.Forall₂ site.Agrees ids (codes ++ [last])) :
    site.Agrees id (.eseq (.seq (codes.map .exp)) last) := by
  refine (sequence h).congr ?_ (yields_iff hk)
  intro before value after
  rw [Ir.computes_eseq_iff]
  refine exists_congr fun between => and_congr_left fun _ => ?_
  rw [Ir.executes_seq_iff, Ir.reaches_iff_straight]
  intro statement hm
  obtain ⟨code, _, rfl⟩ := List.mem_map.mp hm
  rfl

end Agrees

section Counting

variable {counter low high step body : NodeId} {word : String}
  {counterCode lowCode highCode stepCode bodyCode : Ir.Expr}
  (hr : site.Reads cell counterCode)

include hr

/-- The code of a counter and of an upper bound compares them. -/
theorem Reads.compares (hh : site.Agrees high highCode) :
    site.Follows (Tests site.address (.binop .lt counterCode highCode))
      (Compares site.program.arena site.program.bindings cell high) := by
  constructor
  · rintro before _ after hs ⟨value, hc, rfl⟩
    obtain ⟨first, between, bound, hfirst, hsecond, ho⟩ := Ir.computes_binop_iff.mp hc
    obtain ⟨rfl, rfl⟩ := hr.computes_iff.mp hfirst
    obtain ⟨hy, hsane⟩ := hh.sound hs hsecond
    cases ho
    exact ⟨⟨bound, hy, truth_ne_zero _⟩, hsane⟩
  · rintro before _ store hs ⟨bound, hy, rfl⟩
    obtain ⟨after, hsecond, hafter⟩ := hh.complete hs hy
    have htest : Computes site.address (.binop .lt counterCode highCode) before
        (truth (decide (site.view before cell < bound))) after :=
      .binop (hr.computes before) hsecond rfl
    exact ⟨after, ⟨_, htest, (truth_ne_zero _).symm⟩, hafter⟩

variable (h : site.Fits frame)
  (hcount : ∀ {store : Store site.Scope} value,
    Truthful site.program.arena site.program.bindings store →
      Truthful site.program.arena site.program.bindings (Function.update store cell value))

include h hcount

/-- A counter is set by a move to its slot. -/
theorem Reads.sets (hl : site.Agrees low lowCode) :
    site.Follows (Resultless (Straight site.address [.move counterCode lowCode]))
      (Resultless (Sets site.program.arena site.program.bindings cell low)) := by
  have hmove : ∀ {before after}, Straight site.address [.move counterCode lowCode] before after ↔
      ∃ value memory, Computes site.address lowCode before value memory ∧
        after = Function.update memory (slot site.address site.program.layout cell.1) value := by
    intro before after
    simp [Ir.straight_cons_iff, Ir.straight_nil_iff, hr.executes_move_iff]
  constructor
  · intro before _ after hs hx
    obtain ⟨value, memory, hc, rfl⟩ := hmove.mp hx
    obtain ⟨hy, hsane⟩ := hl.sound hs hc
    rw [Sane, h.view_update]
    exact ⟨⟨value, _, hy, rfl⟩, hcount value hsane⟩
  · rintro before _ store hs ⟨value, between, hy, rfl⟩
    obtain ⟨memory, hc, rfl, hsane⟩ := hl.complete hs hy
    refine ⟨_, hmove.mpr ⟨value, memory, hc, rfl⟩, h.view_update _ _ _, ?_⟩
    rw [Sane, h.view_update]
    exact hcount value hsane

/-- A round of counting runs the body and raises the counter. -/
theorem Reads.advances (hb : site.Agrees body bodyCode) (hs : site.Agrees step stepCode) :
    site.Follows
      (Resultless (Straight site.address
        [.exp bodyCode, .move counterCode (.binop .add counterCode stepCode)]))
      (Resultless (Advances site.program.arena site.program.bindings cell step body)) := by
  have hround : ∀ {before after}, Straight site.address
        [.exp bodyCode, .move counterCode (.binop .add counterCode stepCode)] before after ↔
      ∃ between, Executes site.address (.exp bodyCode) before none between ∧
        ∃ width memory, Computes site.address stepCode between width memory ∧
          after = Function.update memory (slot site.address site.program.layout cell.1)
            (site.view between cell + width) := by
    intro before after
    simp only [Ir.straight_cons_iff, Ir.straight_nil_iff, hr.executes_move_iff,
      Ir.computes_binop_iff, hr.computes_iff, Ir.Operator.apply?, Option.some.injEq]
    constructor
    · rintro ⟨between, hx, _, ⟨_, memory, ⟨_, _, width, ⟨rfl, rfl⟩, hc, rfl⟩, rfl⟩, rfl⟩
      exact ⟨_, hx, width, memory, hc, rfl⟩
    · rintro ⟨between, hx, width, memory, hc, rfl⟩
      exact ⟨between, hx, _, ⟨_, memory, ⟨_, _, width, ⟨rfl, rfl⟩, hc, rfl⟩, rfl⟩, rfl⟩
  constructor
  · intro before _ after hsane hx
    obtain ⟨between, hexp, width, memory, hc, rfl⟩ := hround.mp hx
    obtain ⟨hperforms, hsane'⟩ := hb.performs.sound_step hsane hexp
    obtain ⟨hy, hsane''⟩ := hs.sound hsane' hc
    rw [Sane, h.view_update]
    exact ⟨⟨_, width, _, hperforms, hy, rfl⟩, hcount _ hsane''⟩
  · rintro before _ store hsane ⟨between, width, stepped, hperforms, hy, rfl⟩
    obtain ⟨reached, hexp, rfl, hsane'⟩ := hb.performs.complete_step hsane hperforms
    obtain ⟨memory, hc, rfl, hsane''⟩ := hs.complete hsane' hy
    refine ⟨_, hround.mpr ⟨reached, hexp, width, memory, hc, rfl⟩, h.view_update _ _ _, ?_⟩
    rw [Sane, h.view_update]
    exact hcount _ hsane''

end Counting

namespace Fits

variable (h : site.Fits frame)

include h

/-- A loop that counts sets its counter, and raises it at the end of every round. -/
theorem agrees_forLoop {counter low high step body : NodeId} {word : String}
    {counterCode lowCode highCode stepCode bodyCode : Ir.Expr} (labels : LabelSupply)
    (hk : site.program.arena.kind? id =
      some (.expression (.forLoop counter low high step body)))
    (hn : site.program.arena.kind? counter = some (.expression (.name word)))
    (hb : site.program.bindings.get? counter = some cell.1) (hr : site.Reads cell counterCode)
    (hlow : site.Agrees low lowCode) (hhigh : site.Agrees high highCode)
    (hstep : site.Agrees step stepCode) (hbody : site.Agrees body bodyCode) :
    site.Agrees id (Lowering.zeroAfter [.move counterCode lowCode, .label labels.label,
      .cjump (.binop .lt counterCode highCode) labels.rest.label labels.rest.rest.label,
      .label labels.rest.label, .exp bodyCode,
      .move counterCode (.binop .add counterCode stepCode), .jump labels.label,
      .label labels.rest.rest.label]) := by
  obtain ⟨type, htype⟩ := h.wellTyped.total hk rfl
  obtain ⟨hcounter, _⟩ := htype.derives hk
  have hcount : ∀ {store : Store site.Scope} value,
      Truthful site.program.arena site.program.bindings store →
        Truthful site.program.arena site.program.bindings (Function.update store cell value) :=
    fun value ht => ht.count hcounter hn hb value
  refine Agrees.loop labels hk ?_ (by simp [Ir.Stmt.isStraight]) (hr.sets h hcount hlow)
    (hr.compares hhigh) (hr.advances h hcount hbody hstep)
  intro before value after
  constructor
  · rintro ⟨rfl, _, found, _, hb', hrounds⟩
    obtain rfl : found = cell := Cell.unique hb' hb
    exact ⟨rfl, hrounds⟩
  · rintro ⟨rfl, hrounds⟩
    exact ⟨rfl, word, cell, hn, hb, hrounds⟩

/-- A literal agrees with the constant for its value. -/
theorem agrees_integer {text : String} {number : Int}
    (hk : site.program.arena.kind? id = some (.expression (.literal text .integer)))
    (hn : Text.signed? text = some number) : site.Agrees id (.constant number) := by
  refine h.agrees ?_ ?_
  · intro before value after _ hc
    obtain ⟨rfl, rfl⟩ := Ir.computes_constant_iff.mp hc
    exact .integer hk hn
  · intro before value store _ hy
    obtain ⟨found, hn', rfl, rfl⟩ := (yields_iff hk).mp hy
    cases hn.symm.trans hn'
    exact ⟨before, .constant, rfl⟩

/-- A logical literal agrees with 0 or 1. -/
theorem agrees_logical {text : String}
    (hk : site.program.arena.kind? id = some (.expression (.literal text .logical))) :
    site.Agrees id (.constant (if text = "true" then 1 else 0)) := by
  have hvalue : Int32.ofInt (if text = "true" then 1 else 0) = truth (text == "true") := by
    rcases eq_or_ne text "true" with rfl | hne
    · rfl
    · simp [hne, truth]
  refine h.agrees ?_ ?_
  · intro before value after _ hc
    obtain ⟨rfl, rfl⟩ := Ir.computes_constant_iff.mp hc
    exact hvalue ▸ .logical hk
  · intro before value store _ hy
    obtain ⟨rfl, rfl⟩ := (yields_iff hk).mp hy
    exact ⟨before, hvalue ▸ .constant, rfl⟩

/-- A name agrees with the code that reads its variable. -/
theorem agrees_name {word : String}
    (hk : site.program.arena.kind? id = some (.expression (.name word)))
    (hb : site.program.bindings.get? id = some cell.1) (hr : site.Reads cell code) :
    site.Agrees id code := by
  refine h.agrees ?_ ?_
  · intro before value after _ hc
    obtain ⟨rfl, rfl⟩ := hr.computes_iff.mp hc
    exact .name hk hb
  · intro before value store _ hy
    obtain ⟨found, hb', rfl, rfl⟩ := (yields_iff hk).mp hy
    obtain rfl : found = cell := Cell.unique hb' hb
    exact ⟨before, hr.computes before, rfl⟩

/-- An operation computes its sides from left to right. -/
theorem agrees_operation {operator : BinaryOperator} {computed : Ir.Operator}
    {left right : NodeId} {leftCode rightCode : Ir.Expr}
    (hk : site.program.arena.kind? id = some (.expression (.binary operator left right)))
    (ho : Ir.Operator.ofBinary? operator = some computed) (hl : site.Agrees left leftCode)
    (hr : site.Agrees right rightCode) :
    site.Agrees id (.binop computed leftCode rightCode) := by
  have hmeans : ∀ {before : Store site.Scope} {value after}, site.Yields id before value after ↔
      ∃ first between second, site.Yields left before first between ∧
        site.Yields right between second after ∧ operator.apply? first second = some value := by
    intro before value after
    refine (yields_iff hk).trans ?_
    cases operator <;> first | rfl | cases ho
  obtain ⟨type, htype⟩ := h.wellTyped.total hk rfl
  have hsame : ∀ {before between after : Store site.Scope} {first second : Int32},
      Truthful site.program.arena site.program.bindings before →
      site.Yields left before first between → site.Yields right between second after →
        computed.apply? first second = operator.apply? first second := by
    intro before between after first second hs hy hy'
    refine Ir.Operator.apply?_of_ofBinary? ho fun hlogical => ?_
    obtain ⟨hleft, hright⟩ := htype.logical_sides hk hlogical
    obtain ⟨hs', hfirst⟩ := hy.truthful h.wellTyped trivial hs
    exact ⟨hfirst hleft, (hy'.truthful h.wellTyped trivial hs').2 hright⟩
  refine h.agrees ?_ ?_
  · intro before value after hs hc
    obtain ⟨first, between, second, hfirst, hsecond, happly⟩ := Ir.computes_binop_iff.mp hc
    obtain ⟨hy, hs'⟩ := hl.sound hs hfirst
    obtain ⟨hy', _⟩ := hr.sound hs' hsecond
    exact hmeans.mpr ⟨first, _, second, hy, hy', hsame hs hy hy' ▸ happly⟩
  · intro before value store hs hyields
    obtain ⟨first, between, second, hy, hy', happly⟩ := hmeans.mp hyields
    obtain ⟨reached, hfirst, rfl, hs'⟩ := hl.complete hs hy
    obtain ⟨after, hsecond, rfl, _⟩ := hr.complete hs' hy'
    exact ⟨after, .binop hfirst hsecond ((hsame hs hy hy').trans happly), rfl⟩

/-- An operator in front is a sum or a difference. -/
theorem agrees_unary {operator : UnaryOperator} {operand : NodeId} {operandCode : Ir.Expr}
    (hk : site.program.arena.kind? id = some (.expression (.unary operator operand)))
    (ho : site.Agrees operand operandCode) :
    site.Agrees id (Lowering.unaryCode operandCode operator) := by
  obtain ⟨type, htype⟩ := h.wellTyped.total hk rfl
  obtain ⟨operandType, hoperand, happlied⟩ := htype.derives hk
  obtain ⟨rfl, _⟩ := Typing.applied?_eq_some_iff.mp happlied
  have hcode : ∀ {before after value}, Computes site.address
        (Lowering.unaryCode operandCode operator) before value after ↔
      ∃ word, Computes site.address operandCode before word after ∧
        value = if operator = .not then 1 - word else operator.apply word := by
    intro before after value
    cases operator <;> simp [Lowering.unaryCode, Ir.computes_binop_iff, Ir.computes_constant_iff,
      Ir.Operator.apply?, UnaryOperator.apply, eq_comm]
  have hsame : ∀ {before after : Store site.Scope} {word : Int32},
      Truthful site.program.arena site.program.bindings before →
      site.Yields operand before word after →
        (if operator = .not then 1 - word else operator.apply word) = operator.apply word := by
    intro before after word hs hy
    cases operator with
    | plus | minus => rfl
    | not =>
      have hword := (hy.truthful h.wellTyped trivial hs).2 hoperand
      rcases hword with rfl | rfl <;> rfl
  refine h.agrees ?_ ?_
  · intro before value after hs hc
    obtain ⟨word, hc', rfl⟩ := hcode.mp hc
    obtain ⟨hy, _⟩ := ho.sound hs hc'
    rw [hsame hs hy]
    exact .unary hk hy
  · intro before value store hs hy
    obtain ⟨word, hy', rfl⟩ := (yields_iff hk).mp hy
    obtain ⟨after, hc, rfl, _⟩ := ho.complete hs hy'
    exact ⟨after, hcode.mpr ⟨word, hc, (hsame hs hy').symm⟩, rfl⟩

/-- An assignment moves its value to the slot of a variable, and reads it back. -/
theorem agrees_assign {target source : NodeId} {word : String} {targetCode sourceCode : Ir.Expr}
    (hk : site.program.arena.kind? id = some (.expression (.binary .assign target source)))
    (hn : site.program.arena.kind? target = some (.expression (.name word)))
    (hb : site.program.bindings.get? target = some cell.1) (hr : site.Reads cell targetCode)
    (hs : site.Agrees source sourceCode) :
    site.Agrees id (.eseq (.move targetCode sourceCode) targetCode) := by
  have hcode : ∀ {before after value}, Computes site.address
        (.eseq (.move targetCode sourceCode) targetCode) before value after ↔
      ∃ memory, Computes site.address sourceCode before value memory ∧
        after = Function.update memory (slot site.address site.program.layout cell.1) value := by
    intro before after value
    simp only [Ir.computes_eseq_iff, hr.executes_move_iff, hr.computes_iff]
    constructor
    · rintro ⟨_, ⟨value', memory, hc, rfl⟩, rfl, rfl⟩
      rw [h.view_update, Function.update_self]
      exact ⟨memory, hc, rfl⟩
    · rintro ⟨memory, hc, rfl⟩
      refine ⟨_, ⟨value, memory, hc, rfl⟩, ?_, rfl⟩
      rw [h.view_update, Function.update_self]
  refine h.agrees ?_ ?_
  · intro before value after hsane hc
    obtain ⟨memory, hc', rfl⟩ := hcode.mp hc
    obtain ⟨hy, _⟩ := hs.sound hsane hc'
    rw [h.view_update]
    exact .assign hk hn hb hy
  · intro before value store hsane hy
    obtain ⟨_, found, stored, _, hb', hy', rfl⟩ := (yields_iff hk).mp hy
    obtain rfl : found = cell := Cell.unique hb' hb
    obtain ⟨memory, hc, rfl, _⟩ := hs.complete hsane hy'
    exact ⟨_, hcode.mpr ⟨memory, hc, rfl⟩, h.view_update _ _ _⟩

end Fits

/-- What is lowered agrees with its code, if only plain expressions are computed. -/
def AgreesAll (site : Site) : Lowering.Task → List Ir.Expr → Prop
  | .expression id, codes => site.AllPlain id → ∀ code ∈ codes, site.Agrees id code
  | .expressions ids, codes =>
    (∀ id ∈ ids, site.AllPlain id) → List.Forall₂ site.Agrees ids codes
  | .definition _, _ | .definitions _, _ => True

/-- An expression is plain itself, if all that is computed with it is. -/
theorem AllPlain.plain (h : site.AllPlain id) : Plain site.program site.owner id :=
  h id (site.program.arena.mem_own id)

/-- What is computed with the operands of an expression is computed with the expression. -/
theorem AllPlain.operand (h : site.AllPlain id) (ht : site.program.arena.IsTree) {kind : NodeKind}
    (hk : site.program.arena.kind? id = some kind) {below : NodeId}
    (hm : below ∈ site.program.arena.operands id) : site.AllPlain below :=
  ((ht.forall_own_iff hk).mp h).2 below hm

end Site

namespace Lowering

variable {site : Site} {frame : Frame} {id : NodeId} {level : Nat} {task : Task}
  {labels rest first : LabelSupply} {codes : List Ir.Expr} {code : Ir.Expr}
  {chunks own : List Chunk}

/-- An expression agrees with what is made of the code of its operands, if these agree. -/
theorem Combines.agrees {item : Expression} (h : site.Fits frame)
    (hc : Combines site.program frame.level id item codes labels code own rest)
    (hk : site.program.arena.kind? id = some (.expression item)) (hp : site.AllPlain id)
    (hbelow : ∀ below ∈ item.children, site.AllPlain below)
    (hl : Lowers site.program frame.level first (.expressions item.children) codes chunks labels)
    (hf : List.Forall₂ site.Agrees item.children codes) : site.Agrees id code := by
  have hform := hp.plain.form (Arena.expression?_of_kind? hk)
  cases hc with
  | integer hn => exact h.agrees_integer hk hn
  | logical => exact h.agrees_logical hk
  | string | routine | call => cases hform
  | name hb ht ha =>
    exact h.agrees_name hk hb (h.reads_valueAt ⟨_, h.inScope hk hb hp.plain⟩ ht ha)
  | operation ho =>
    simp only [Expression.children, List.forall₂_cons] at hf
    exact h.agrees_operation hk ho hf.1 hf.2.1
  | index ht he hs =>
    -- an array would have to stand in front of the index
    have harray := (hbelow _ List.mem_cons_self).plain.scalar (h.prepared.typed.sound ht)
    rw [Ty.isArray_of_element? he] at harray
    cases harray
  | assign =>
    simp only [Expression.children, List.forall₂_cons] at hf hl
    obtain ⟨word, hn⟩ := hp.plain.target hk
    cases hl with
    | expressions hfirst _ =>
      obtain ⟨cell, found, hcodes, hb, hr⟩ :=
        h.reads_name hfirst hn (hbelow _ List.mem_cons_self).plain
      cases hcodes
      exact h.agrees_assign hk hn hb hr hf.2.1
  | unary =>
    simp only [Expression.children, List.forall₂_cons] at hf
    exact h.agrees_unary hk hf.1
  | block => exact .block hk hf
  | conditional =>
    simp only [Expression.children, List.forall₂_cons] at hf
    exact .conditional _ hk hf.1 hf.2.1
  | whileLoop =>
    simp only [Expression.children, List.forall₂_cons] at hf
    exact .whileLoop _ hk hf.1 hf.2.1
  | forLoop =>
    simp only [Expression.children, List.forall₂_cons] at hf hl
    obtain ⟨_, hlow, hhigh, hstep, hbody, _⟩ := hf
    obtain ⟨word, hn⟩ := h.prepared.tree.kind?_counter hk
    cases hl with
    | expressions hfirst _ =>
      obtain ⟨cell, found, hcodes, hb, hr⟩ :=
        h.reads_name hfirst hn (hbelow _ List.mem_cons_self).plain
      cases hcodes
      exact h.agrees_forLoop _ hk hn hb hr hlow hhigh hstep hbody

/-- Whatever is lowered at the level of a function agrees with its code, if only plain expressions
are computed. -/
theorem Lowers.agrees (h : site.Fits frame)
    (hl : Lowers site.program level labels task codes chunks rest) (hlevel : level = frame.level) :
    site.AgreesAll task codes := by
  induction hl with
  | @node level labels₁ labels₂ labels₃ id item codes code chunks own hk hchildren hcombines ih =>
    subst hlevel
    intro hp found hm
    obtain rfl := List.mem_singleton.mp hm
    have hw : ∀ inner body, item ≠ .whereClause inner body := by
      rintro inner body rfl
      cases hcombines
    have hbelow : ∀ below ∈ item.children, site.AllPlain below := by
      intro below hm
      rw [← Arena.operands_eq_children hk hw] at hm
      exact hp.operand h.prepared.tree hk hm
    exact hcombines.agrees h hk hp hbelow hchildren (ih rfl hbelow)
  | @choice level labels₁ labels₂ labels₃ id condition thenBranch elseBranch test thenCode elseCode
      chunks others hk hfront helse ihf ihe =>
    intro hp found hm
    obtain rfl := List.mem_singleton.mp hm
    have hbelow : ∀ below ∈ [condition, thenBranch, elseBranch], site.AllPlain below := by
      intro below hm
      have hoperands := Arena.operands_eq_children hk (by simp)
      exact hp.operand h.prepared.tree hk (hoperands ▸ hm)
    simp only [List.forall_mem_cons] at hbelow
    obtain ⟨hcondition, hthen, helse', _⟩ := hbelow
    have hagree := ihf hlevel (by simp [hcondition, hthen])
    simp only [List.forall₂_cons] at hagree
    exact .choice helse.next_le hk hagree.1 hagree.2.1
      (ihe hlevel helse' elseCode List.mem_cons_self)
  | whereClause hk _ _ _ _ ihb =>
    intro hp found hm
    have hoperands := Arena.operands_whereClause hk
    have hbody := hp.operand h.prepared.tree hk (hoperands ▸ List.mem_singleton_self _)
    exact (ihb hlevel hbody found hm).congr Iff.rfl (yields_iff hk)
  | noExpressions => exact fun _ => .nil
  | expressions _ _ ihf ihr =>
    intro hp
    rw [List.forall_mem_cons] at hp
    exact .cons (ihf hlevel hp.1 _ List.mem_cons_self) (ihr hlevel hp.2)
  | function | storage | type | parameter | noDefinitions | definitions => trivial

end Lowering

end Pins
