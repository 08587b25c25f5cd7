import Mathlib.Logic.Function.Basic
import Pins.Ir.Basic
import Pins.Proofs.Rounds

/-!
# Running intermediate code

Code is run over a memory of words. Labels have addresses; the frame pointer is a label for this
purpose. A list of statements is run from the front, and a jump goes on behind its target in the
same list. Calls are not run, and neither is a division by zero.

Behind the rules, one equivalence for each form of code says what running it comes to. A list that
tests, runs a stretch without jumps and jumps back does rounds (`reaches_loop_iff`).
-/

namespace Pins.Ir

/-- What is kept at every address. -/
abbrev Memory := Int32 → Int32

/-- The value of an operation, if it has one. Sums, differences and products wrap around, quotients
are rounded towards zero. -/
def Operator.apply? : Operator → Int32 → Int32 → Option Int32
  | or, left, right => some (left ||| right)
  | and, left, right => some (left &&& right)
  | eq, left, right => some (truth (left == right))
  | neq, left, right => some (truth (left != right))
  | lt, left, right => some (truth (decide (left < right)))
  | gt, left, right => some (truth (decide (right < left)))
  | leq, left, right => some (truth (decide (left ≤ right)))
  | geq, left, right => some (truth (decide (right ≤ left)))
  | add, left, right => some (left + right)
  | sub, left, right => some (left - right)
  | mul, left, right => some (left * right)
  | div, left, right => if right = 0 then none else some (left / right)
  | mod, left, right => if right = 0 then none else some (left % right)

/-- The statements behind a label in a list. -/
def behind? (target : Label) : List Stmt → Option (List Stmt)
  | .label found :: rest => if found = target then some rest else behind? target rest
  | _ :: rest => behind? target rest
  | [] => none

mutual

/-- Code computes a value and leaves a memory. -/
inductive Computes (address : Label → Int32) : Expr → Memory → Int32 → Memory → Prop where
  | constant {value : Int} {memory : Memory} :
      Computes address (.constant value) memory (Int32.ofInt value) memory
  | name {label : Label} {memory : Memory} :
      Computes address (.name label) memory (address label) memory
  | memory {place : Expr} {before after : Memory} {word : Int32}
      (hp : Computes address place before word after) :
      Computes address (.memory place) before (after word) after
  | binop {operator : Operator} {left right : Expr} {before between after : Memory}
      {first second value : Int32} (hl : Computes address left before first between)
      (hr : Computes address right between second after)
      (ho : operator.apply? first second = some value) :
      Computes address (.binop operator left right) before value after
  | eseq {statement : Stmt} {code : Expr} {before between after : Memory} {value : Int32}
      (hs : Executes address statement before none between)
      (hc : Computes address code between value after) :
      Computes address (.eseq statement code) before value after

/-- A statement is run; it jumps to a label, or leaves the next statement to be run. -/
inductive Executes (address : Label → Int32) : Stmt → Memory → Option Label → Memory → Prop where
  | move {place source : Expr} {before between after : Memory} {word value : Int32}
      (hp : Computes address place before word between)
      (hs : Computes address source between value after) :
      Executes address (.move (.memory place) source) before none
        (Function.update after word value)
  | exp {code : Expr} {before after : Memory} {value : Int32}
      (hc : Computes address code before value after) :
      Executes address (.exp code) before none after
  | seq {statements : List Stmt} {before after : Memory} {count : Nat}
      (hp : Proceeds address count statements statements before after) :
      Executes address (.seq statements) before none after
  | label {label : Label} {memory : Memory} :
      Executes address (.label label) memory none memory
  | jump {target : Label} {memory : Memory} :
      Executes address (.jump target) memory (some target) memory
  | cjump {condition : Expr} {thenTarget elseTarget : Label} {before after : Memory}
      {value : Int32} (hc : Computes address condition before value after) :
      Executes address (.cjump condition thenTarget elseTarget) before
        (some (if value = 0 then elseTarget else thenTarget)) after

/-- From some statements of a list on, so many statements are run to its end. -/
inductive Proceeds (address : Label → Int32) :
    Nat → List Stmt → List Stmt → Memory → Memory → Prop where
  | done {all : List Stmt} {memory : Memory} : Proceeds address 0 all [] memory memory
  | next {all rest : List Stmt} {statement : Stmt} {before between after : Memory} {count : Nat}
      (hs : Executes address statement before none between)
      (hp : Proceeds address count all rest between after) :
      Proceeds address (count + 1) all (statement :: rest) before after
  | jump {all rest others : List Stmt} {statement : Stmt} {target : Label}
      {before between after : Memory} {count : Nat}
      (hs : Executes address statement before (some target) between)
      (hb : behind? target all = some others)
      (hp : Proceeds address count all others between after) :
      Proceeds address (count + 1) all (statement :: rest) before after

end

/-- From some statements of a list on, its end is reached. -/
def Reaches (address : Label → Int32) (all rest : List Stmt) (before after : Memory) : Prop :=
  ∃ count, Proceeds address count all rest before after

/-- What a condition finds, and the memory it leaves. -/
def Tests (address : Label → Int32) (condition : Expr) (before : Memory) (holds : Bool)
    (after : Memory) : Prop :=
  ∃ value, Computes address condition before value after ∧ holds = (value != 0)

/-- Statements without jumps are run one behind the other. -/
inductive Straight (address : Label → Int32) : List Stmt → Memory → Memory → Prop where
  | nil {memory : Memory} : Straight address [] memory memory
  | cons {statement : Stmt} {rest : List Stmt} {before between after : Memory}
      (hs : Executes address statement before none between)
      (hr : Straight address rest between after) :
      Straight address (statement :: rest) before after

/-- A statement is neither a jump nor the target of one. -/
def Stmt.isStraight : Stmt → Bool
  | move .. | exp _ => true
  | _ => false

variable {address : Label → Int32} {before between after memory : Memory} {value word : Int32}
  {code place : Expr} {statement : Stmt} {outcome : Option Label} {all rest others : List Stmt}
  {count : Nat} {target : Label}

theorem computes_constant_iff {number : Int} :
    Computes address (.constant number) before value after ↔
      value = Int32.ofInt number ∧ after = before := by
  constructor
  · intro h
    cases h
    exact ⟨rfl, rfl⟩
  · rintro ⟨rfl, rfl⟩
    exact .constant

theorem computes_name_iff :
    Computes address (.name target) before value after ↔
      value = address target ∧ after = before := by
  constructor
  · intro h
    cases h
    exact ⟨rfl, rfl⟩
  · rintro ⟨rfl, rfl⟩
    exact .name

theorem computes_memory_iff :
    Computes address (.memory place) before value after ↔
      ∃ word, Computes address place before word after ∧ value = after word := by
  constructor
  · intro h
    cases h with
    | memory hp => exact ⟨_, hp, rfl⟩
  · rintro ⟨word, hp, rfl⟩
    exact .memory hp

theorem computes_binop_iff {operator : Operator} {left right : Expr} :
    Computes address (.binop operator left right) before value after ↔
      ∃ first between second, Computes address left before first between ∧
        Computes address right between second after ∧
        operator.apply? first second = some value := by
  constructor
  · intro h
    cases h with
    | binop hl hr ho => exact ⟨_, _, _, hl, hr, ho⟩
  · rintro ⟨first, between, second, hl, hr, ho⟩
    exact .binop hl hr ho

theorem computes_eseq_iff :
    Computes address (.eseq statement code) before value after ↔
      ∃ between, Executes address statement before none between ∧
        Computes address code between value after := by
  constructor
  · intro h
    cases h with
    | eseq hs hc => exact ⟨_, hs, hc⟩
  · rintro ⟨between, hs, hc⟩
    exact .eseq hs hc

theorem executes_move_iff {source : Expr} :
    Executes address (.move (.memory place) source) before none after ↔
      ∃ word between value stored, Computes address place before word between ∧
        Computes address source between value stored ∧
        after = Function.update stored word value := by
  constructor
  · intro h
    cases h with
    | move hp hs => exact ⟨_, _, _, _, hp, hs, rfl⟩
  · rintro ⟨word, between, value, stored, hp, hs, rfl⟩
    exact .move hp hs

theorem executes_exp_iff :
    Executes address (.exp code) before none after ↔
      ∃ value, Computes address code before value after := by
  constructor
  · intro h
    cases h with
    | exp hc => exact ⟨_, hc⟩
  · rintro ⟨value, hc⟩
    exact .exp hc

theorem executes_seq_iff {statements : List Stmt} :
    Executes address (.seq statements) before none after ↔
      Reaches address statements statements before after := by
  constructor
  · intro h
    cases h with
    | seq hp => exact ⟨_, hp⟩
  · rintro ⟨count, hp⟩
    exact .seq hp

/-- A statement has one outcome, and leaves one memory. The induction is on the rules of all three
relations at once. -/
theorem Executes.unique {outcome' : Option Label} {after' : Memory}
    (h : Executes address statement before outcome after)
    (h' : Executes address statement before outcome' after') :
    outcome = outcome' ∧ after = after' := by
  refine @Executes.rec address
    (fun code before value after _ => ∀ {value' after'},
      Computes address code before value' after' → value = value' ∧ after = after')
    (fun statement before outcome after _ => ∀ {outcome' after'},
      Executes address statement before outcome' after' → outcome = outcome' ∧ after = after')
    (fun _ all rest before after _ => ∀ {count after'},
      Proceeds address count all rest before after' → after = after')
    ?constant ?name ?memory ?binop ?eseq ?move ?exp ?seq ?label ?jump ?cjump ?done ?next ?behind
    _ _ _ _ h _ _ h'
  case constant =>
    intro number memory value' after' h'
    cases h'
    exact ⟨rfl, rfl⟩
  case name =>
    intro label memory value' after' h'
    cases h'
    exact ⟨rfl, rfl⟩
  case memory =>
    intro place before after word _ ih value' after' h'
    obtain ⟨word', hp, rfl⟩ := computes_memory_iff.mp h'
    obtain ⟨rfl, rfl⟩ := ih hp
    exact ⟨rfl, rfl⟩
  case binop =>
    intro operator left right before between after first second value _ _ ho ihl ihr value' after'
      h'
    obtain ⟨first', between', second', hl, hr, ho'⟩ := computes_binop_iff.mp h'
    obtain ⟨rfl, rfl⟩ := ihl hl
    obtain ⟨rfl, rfl⟩ := ihr hr
    exact ⟨Option.some.inj (ho.symm.trans ho'), rfl⟩
  case eseq =>
    intro statement code before between after value _ _ ihs ihc value' after' h'
    obtain ⟨between', hs, hc⟩ := computes_eseq_iff.mp h'
    obtain ⟨_, rfl⟩ := ihs hs
    exact ihc hc
  case move =>
    intro place source before between after word value _ _ ihp ihs outcome' after' h'
    cases h' with
    | move hp hs =>
      obtain ⟨rfl, rfl⟩ := ihp hp
      obtain ⟨rfl, rfl⟩ := ihs hs
      exact ⟨rfl, rfl⟩
  case exp =>
    intro code before after value _ ih outcome' after' h'
    cases h' with
    | exp hc => exact ⟨rfl, (ih hc).2⟩
  case seq =>
    intro statements before after count _ ih outcome' after' h'
    cases h' with
    | seq hp => exact ⟨rfl, ih hp⟩
  case label =>
    intro label memory outcome' after' h'
    cases h'
    exact ⟨rfl, rfl⟩
  case jump =>
    intro target memory outcome' after' h'
    cases h'
    exact ⟨rfl, rfl⟩
  case cjump =>
    intro condition thenTarget elseTarget before after value _ ih outcome' after' h'
    cases h' with
    | cjump hc =>
      obtain ⟨rfl, rfl⟩ := ih hc
      exact ⟨rfl, rfl⟩
  case done =>
    intro all memory count after' h'
    cases h'
    rfl
  case next =>
    intro all rest statement before between after count _ _ ihs ihp count' after' h'
    cases h' with
    | next hs hp =>
      obtain ⟨_, rfl⟩ := ihs hs
      exact ihp hp
    | jump hs =>
      obtain ⟨houtcome, _⟩ := ihs hs
      cases houtcome
  case behind =>
    intro all rest others statement target before between after count _ hb _ ihs ihp count' after'
      h'
    cases h' with
    | next hs =>
      obtain ⟨houtcome, _⟩ := ihs hs
      cases houtcome
    | jump hs hb' hp =>
      obtain ⟨houtcome, rfl⟩ := ihs hs
      cases houtcome
      cases hb.symm.trans hb'
      exact ihp hp

/-- A statement that is neither a jump nor a label does not jump. -/
theorem Executes.outcome_eq_none (h : Executes address statement before outcome after)
    (hs : statement.isStraight = true) : outcome = none := by
  cases h with
  | move | exp | seq | label => rfl
  | jump | cjump => cases hs

namespace Proceeds

/-- A stretch without jumps is run first. -/
theorem straight {stretch : List Stmt} (hs : ∀ statement ∈ stretch, statement.isStraight = true)
    (h : Proceeds address count all (stretch ++ rest) before after) :
    ∃ between less, less ≤ count ∧ Straight address stretch before between ∧
      Proceeds address less all rest between after := by
  induction stretch generalizing before count with
  | nil => exact ⟨before, count, Nat.le_refl _, .nil, h⟩
  | cons statement stretch ih =>
    cases h with
    | next hfirst hp =>
      obtain ⟨between, less, hle, hstraight, hrest⟩ :=
        ih (fun other hm => hs other (List.mem_cons_of_mem _ hm)) hp
      exact ⟨between, less, Nat.le_succ_of_le hle, .cons hfirst hstraight, hrest⟩
    | jump hfirst =>
      cases hfirst.outcome_eq_none (hs statement List.mem_cons_self)

/-- Behind a label the next statement is run. -/
theorem label (h : Proceeds address count all (.label target :: rest) before after) :
    ∃ less, less < count ∧ Proceeds address less all rest before after := by
  cases h with
  | next hs hp =>
    cases hs
    exact ⟨_, Nat.lt_succ_self _, hp⟩
  | jump hs => cases hs

/-- A jump goes on behind its target. -/
theorem behind (h : Proceeds address count all (.jump target :: rest) before after)
    (hb : behind? target all = some others) :
    ∃ less, less < count ∧ Proceeds address less all others before after := by
  cases h with
  | next hs => cases hs
  | jump hs hb' hp =>
    cases hs
    cases hb.symm.trans hb'
    exact ⟨_, Nat.lt_succ_self _, hp⟩

/-- A choice goes on behind the target it chooses. -/
theorem choice {condition : Expr} {thenTarget elseTarget : Label} {thenRest elseRest : List Stmt}
    (h : Proceeds address count all (.cjump condition thenTarget elseTarget :: rest) before after)
    (ht : behind? thenTarget all = some thenRest) (he : behind? elseTarget all = some elseRest) :
    ∃ holds tested less, less < count ∧ Tests address condition before holds tested ∧
      Proceeds address less all (if holds then thenRest else elseRest) tested after := by
  cases h with
  | next hs => cases hs
  | jump hs hb hp =>
    cases hs with
    | @cjump _ _ _ _ _ value hc =>
      refine ⟨value != 0, _, _, Nat.lt_succ_self _, ⟨value, hc, rfl⟩, ?_⟩
      rcases eq_or_ne value 0 with rfl | hne
      · cases he.symm.trans hb
        exact hp
      · rw [if_neg hne] at hb
        cases ht.symm.trans hb
        rw [if_pos (by simp [hne])]
        exact hp

end Proceeds

theorem reaches_nil_iff : Reaches address all [] before after ↔ after = before := by
  constructor
  · rintro ⟨count, h⟩
    cases h
    rfl
  · rintro rfl
    exact ⟨0, .done⟩

theorem straight_nil_iff : Straight address [] before after ↔ after = before := by
  constructor
  · intro h
    cases h
    rfl
  · rintro rfl
    exact .nil

theorem straight_cons_iff :
    Straight address (statement :: rest) before after ↔
      ∃ between, Executes address statement before none between ∧
        Straight address rest between after := by
  constructor
  · intro h
    cases h with
    | cons hs hr => exact ⟨_, hs, hr⟩
  · rintro ⟨between, hs, hr⟩
    exact .cons hs hr

/-- A stretch without jumps is run before what follows. -/
theorem reaches_append_iff {stretch : List Stmt}
    (hs : ∀ statement ∈ stretch, statement.isStraight = true) :
    Reaches address all (stretch ++ rest) before after ↔
      ∃ between, Straight address stretch before between ∧
        Reaches address all rest between after := by
  constructor
  · rintro ⟨count, h⟩
    obtain ⟨between, less, _, hstraight, hrest⟩ := h.straight hs
    exact ⟨between, hstraight, less, hrest⟩
  · rintro ⟨between, hstraight, hrest⟩
    induction hstraight with
    | nil => exact hrest
    | cons hfirst _ ih =>
      obtain ⟨count, h⟩ := ih (fun other hm => hs other (List.mem_cons_of_mem _ hm)) hrest
      exact ⟨count + 1, .next hfirst h⟩

/-- A statement without jumps is run before what follows. -/
theorem reaches_cons_iff (hs : statement.isStraight = true) :
    Reaches address all (statement :: rest) before after ↔
      ∃ between, Executes address statement before none between ∧
        Reaches address all rest between after := by
  have hstretch : ∀ other ∈ [statement], other.isStraight = true := by simpa using hs
  rw [← List.singleton_append, reaches_append_iff hstretch]
  simp [straight_cons_iff, straight_nil_iff]

/-- Without jumps, the end is reached one statement behind the other. -/
theorem reaches_iff_straight (hs : ∀ statement ∈ rest, statement.isStraight = true) :
    Reaches address all rest before after ↔ Straight address rest before after := by
  rw [← List.append_nil rest, reaches_append_iff hs]
  simp [reaches_nil_iff]

theorem reaches_label_iff :
    Reaches address all (.label target :: rest) before after ↔
      Reaches address all rest before after := by
  constructor
  · rintro ⟨count, h⟩
    obtain ⟨less, _, hrest⟩ := h.label
    exact ⟨less, hrest⟩
  · rintro ⟨count, h⟩
    exact ⟨count + 1, .next .label h⟩

theorem reaches_jump_iff (hb : behind? target all = some others) :
    Reaches address all (.jump target :: rest) before after ↔
      Reaches address all others before after := by
  constructor
  · rintro ⟨count, h⟩
    obtain ⟨less, _, hrest⟩ := h.behind hb
    exact ⟨less, hrest⟩
  · rintro ⟨count, h⟩
    exact ⟨count + 1, .jump .jump hb h⟩

theorem reaches_cjump_iff {condition : Expr} {thenTarget elseTarget : Label}
    {thenRest elseRest : List Stmt} (ht : behind? thenTarget all = some thenRest)
    (he : behind? elseTarget all = some elseRest) :
    Reaches address all (.cjump condition thenTarget elseTarget :: rest) before after ↔
      ∃ holds tested, Tests address condition before holds tested ∧
        Reaches address all (if holds then thenRest else elseRest) tested after := by
  constructor
  · rintro ⟨count, h⟩
    obtain ⟨holds, tested, less, _, hc, hrest⟩ := h.choice ht he
    exact ⟨holds, tested, hc, less, hrest⟩
  · rintro ⟨holds, tested, ⟨value, hc, rfl⟩, count, h⟩
    refine ⟨count + 1, .jump (.cjump hc) ?_ h⟩
    rcases eq_or_ne value 0 with rfl | hne
    · exact he
    · rw [if_neg hne, if_pos (by simp [hne])]
      exact ht

/-- Labels are looked for behind a stretch without jumps and labels. -/
theorem behind?_append {stretch : List Stmt}
    (hs : ∀ statement ∈ stretch, statement.isStraight = true) :
    behind? target (stretch ++ rest) = behind? target rest := by
  induction stretch with
  | nil => rfl
  | cons statement stretch ih =>
    have hfirst := hs statement List.mem_cons_self
    have hrest := ih fun other hm => hs other (List.mem_cons_of_mem _ hm)
    cases statement with
    | move | exp => exact hrest
    | seq | label | jump | cjump => cases hfirst

/-- The statements of a loop: something is done first, every round begins with a test and ends with
a jump back to it. -/
def loopStatements (front stretch : List Stmt) (condition : Expr) (start body finish : Label) :
    List Stmt :=
  front ++ .label start :: .cjump condition body finish :: .label body ::
    (stretch ++ [.jump start, .label finish])

section Loop

variable {condition : Expr} {start body finish : Label} {front stretch : List Stmt}

section Rounds

variable (hs : ∀ statement ∈ stretch, statement.isStraight = true)
  (hstart : behind? start all = some (.cjump condition body finish :: .label body ::
    (stretch ++ [.jump start, .label finish])))
  (hbody : behind? body all = some (stretch ++ [.jump start, .label finish]))
  (hfinish : behind? finish all = some [])

include hs hstart hbody hfinish

/-- A list that tests, runs a stretch and jumps back to the test does rounds; the number of
statements run drops from one test to the next. -/
theorem Proceeds.rounds (h : Proceeds address count all (.cjump condition body finish :: rest)
    before after) : Rounds (Tests address condition) (Straight address stretch) before after := by
  induction count using Nat.strongRecOn generalizing before rest with
  | ind count ih =>
    obtain ⟨holds, tested, less, hless, htest, hrest⟩ := h.choice hbody hfinish
    cases holds with
    | false =>
      cases hrest
      exact .done htest
    | true =>
      obtain ⟨between, fewer, hfewer, hstraight, hback⟩ := hrest.straight hs
      obtain ⟨again, hagain, hnext⟩ := hback.behind hstart
      exact .more htest hstraight (ih again (by omega) hnext)

/-- Rounds are run by such a list. -/
theorem reaches_of_rounds
    (h : Rounds (Tests address condition) (Straight address stretch) before after) :
    Reaches address all (.cjump condition body finish :: rest) before after := by
  induction h generalizing rest with
  | done ht =>
    rw [reaches_cjump_iff hbody hfinish]
    exact ⟨false, _, ht, reaches_nil_iff.mpr rfl⟩
  | more ht hr _ ih =>
    rw [reaches_cjump_iff hbody hfinish]
    refine ⟨true, _, ht, ?_⟩
    rw [if_pos rfl, reaches_append_iff hs]
    exact ⟨_, hr, (reaches_jump_iff hstart).mpr ih⟩

end Rounds

/-- A loop does its rounds behind what it does first. -/
theorem reaches_loop_iff (hf : ∀ statement ∈ front, statement.isStraight = true)
    (hs : ∀ statement ∈ stretch, statement.isStraight = true) (hsb : start ≠ body)
    (hsf : start ≠ finish) (hbf : body ≠ finish) :
    Reaches address (loopStatements front stretch condition start body finish)
        (loopStatements front stretch condition start body finish) before after ↔
      ∃ between, Straight address front before between ∧
        Rounds (Tests address condition) (Straight address stretch) between after := by
  generalize hall : loopStatements front stretch condition start body finish = all
  have hstart : behind? start all = some (.cjump condition body finish :: .label body ::
      (stretch ++ [.jump start, .label finish])) := by
    simp [← hall, loopStatements, behind?_append hf, behind?]
  have hbody : behind? body all = some (stretch ++ [.jump start, .label finish]) := by
    simp [← hall, loopStatements, behind?_append hf, behind?, hsb]
  have hfinish : behind? finish all = some [] := by
    simp [← hall, loopStatements, behind?_append hf, behind?_append hs, behind?, hsf, hbf]
  rw [← hall, loopStatements, reaches_append_iff hf, ← loopStatements, hall]
  refine exists_congr fun between => and_congr_right fun _ => ?_
  rw [reaches_label_iff]
  constructor
  · rintro ⟨count, h⟩
    exact h.rounds hs hstart hbody hfinish
  · exact reaches_of_rounds hs hstart hbody hfinish

end Loop

end Pins.Ir
