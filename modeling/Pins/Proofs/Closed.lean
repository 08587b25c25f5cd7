import Pins.Proofs.ChunkLabels

/-!
# Code is closed

Whatever code refers to is there: a jump goes to a label that stands in the same list of statements,
a name other than the frame and the stack pointer is the label of one chunk with characters or
storage, and a call goes to the code of the function it is bound to, with an argument for each of
its parameters and one for the static link (`Compilation.references_closed`).

No two chunks have one label (`Compiled.nodup_labels`), so it is enough that a chunk of the label
exists. What holds of the code of every expression if it holds of the codes of its operands is
carried over all code by `Lowers.forall_codes`.
-/

namespace Pins

namespace Ir

variable {value address left right destination source condition : Expr} {statement : Stmt}
  {codes : List Expr} {scope statements : List Stmt} {label target other : Label}
  {fits : Tree → Prop}

mutual

/-- Every jump in an expression goes to a label that stands in the list of the jump. -/
def Expr.Closed : Expr → Prop
  | .constant _ | .name _ => True
  | .memory address => address.Closed
  | .binop _ left right => left.Closed ∧ right.Closed
  | .call _ arguments => Expr.AllClosed arguments
  | .eseq statement value => statement.ClosedIn [] ∧ value.Closed

/-- Every jump in a statement that stands in a list goes to a label that stands in the list of the
jump. -/
def Stmt.ClosedIn (scope : List Stmt) : Stmt → Prop
  | .move destination source => destination.Closed ∧ source.Closed
  | .exp value => value.Closed
  | .seq statements => Stmt.AllClosedIn statements statements
  | .label _ => True
  | .jump target => .label target ∈ scope
  | .cjump condition thenTarget elseTarget =>
    condition.Closed ∧ .label thenTarget ∈ scope ∧ .label elseTarget ∈ scope

/-- All expressions of a list are closed. -/
def Expr.AllClosed : List Expr → Prop
  | [] => True
  | code :: codes => code.Closed ∧ Expr.AllClosed codes

/-- All statements of a list are closed in another. -/
def Stmt.AllClosedIn (scope : List Stmt) : List Stmt → Prop
  | [] => True
  | code :: codes => code.ClosedIn scope ∧ Stmt.AllClosedIn scope codes

end

@[simp] theorem Expr.allClosed_iff : Expr.AllClosed codes ↔ ∀ code ∈ codes, code.Closed := by
  induction codes with
  | nil => simp [Expr.AllClosed]
  | cons code codes ih => simp [Expr.AllClosed, ih]

@[simp] theorem Stmt.allClosedIn_iff :
    Stmt.AllClosedIn scope statements ↔ ∀ code ∈ statements, code.ClosedIn scope := by
  induction statements with
  | nil => simp [Stmt.AllClosedIn]
  | cons code codes ih => simp [Stmt.AllClosedIn, ih]

attribute [simp] Expr.Closed Stmt.ClosedIn

/-- The frame pointer followed through static links is closed. -/
@[simp] theorem closed_staticLink (depth : Nat) : (staticLink depth).Closed := by
  induction depth with
  | zero => simp [staticLink, framePointer]
  | succ depth ih => simpa [staticLink] using ih

/-- All nodes of an expression. -/
def Expr.nodes : Expr → List Tree := Expr.collect some

/-- All nodes of a statement. -/
def Stmt.nodes : Stmt → List Tree := Stmt.collect some

section Nodes

@[simp] theorem nodes_constant {number : Int} :
    (Expr.constant number).nodes = [.expr (.constant number)] := rfl

@[simp] theorem nodes_name : (Expr.name label).nodes = [.expr (.name label)] := rfl

@[simp] theorem nodes_memory :
    (Expr.memory address).nodes = .expr (.memory address) :: address.nodes := rfl

@[simp] theorem nodes_binop {operator : Operator} : (Expr.binop operator left right).nodes =
    .expr (.binop operator left right) :: (left.nodes ++ right.nodes) := rfl

@[simp] theorem nodes_call :
    (Expr.call label codes).nodes = .expr (.call label codes) :: codes.flatMap Expr.nodes := by
  simp [Expr.nodes, Expr.collect]

@[simp] theorem nodes_eseq : (Expr.eseq statement value).nodes =
    .expr (.eseq statement value) :: (statement.nodes ++ value.nodes) := rfl

@[simp] theorem nodes_move : (Stmt.move destination source).nodes =
    .stmt (.move destination source) :: (destination.nodes ++ source.nodes) := rfl

@[simp] theorem nodes_exp : (Stmt.exp value).nodes = .stmt (.exp value) :: value.nodes := rfl

@[simp] theorem nodes_seq : (Stmt.seq statements).nodes =
    .stmt (.seq statements) :: statements.flatMap Stmt.nodes := by
  simp [Stmt.nodes, Stmt.collect]

@[simp] theorem nodes_label : (Stmt.label label).nodes = [.stmt (.label label)] := rfl

@[simp] theorem nodes_jump : (Stmt.jump target).nodes = [.stmt (.jump target)] := rfl

@[simp] theorem nodes_cjump : (Stmt.cjump condition target other).nodes =
    .stmt (.cjump condition target other) :: condition.nodes := rfl

end Nodes

end Ir

/-- The label of the characters or the storage of a chunk. -/
def Chunk.stored? : Chunk → Option Label
  | code .. => none
  | data access _ | global access => access.label?

namespace Lowering

open Ir (Expr Tree)

variable {program : Program} {level : Nat} {id : NodeId} {item : Expression} {task : Task}
  {labels rest : LabelSupply} {codes : List Expr} {code : Expr} {chunks own all : List Chunk}

/-- Something holds of all values that functions leave. -/
def AllLeave (fits : Expr → Prop) (chunks : List Chunk) : Prop :=
  ∀ frame value, Chunk.code frame (.move (.memory Ir.framePointer) value) ∈ chunks → fits value

@[simp] theorem allLeave_append {fits : Expr → Prop} {chunks' : List Chunk} :
    AllLeave fits (chunks ++ chunks') ↔ AllLeave fits chunks ∧ AllLeave fits chunks' := by
  simp only [AllLeave, List.mem_append]
  constructor
  · intro h
    exact ⟨fun frame value hm => h frame value (.inl hm),
      fun frame value hm => h frame value (.inr hm)⟩
  · rintro ⟨hf, hs⟩ frame value hm
    exact hm.elim (hf frame value) (hs frame value)

/-- What is no code leaves nothing. -/
theorem allLeave_of_not_mem {fits : Expr → Prop}
    (h : ∀ frame body, Chunk.code frame body ∉ chunks) : AllLeave fits chunks :=
  fun frame _ hm => absurd hm (h frame _)

/-- What holds of the code of an expression if it holds of the codes of its operands holds of all
codes, and of the values that functions leave. -/
theorem Lowers.forall_codes {fits : Expr → Prop}
    (hnode : ∀ {level id item codes labels₁ labels code chunks own rest},
      program.arena.kind? id = some (.expression item) →
      Lowers program level labels₁ (.expressions item.children) codes chunks labels →
      Combines program level id item codes labels code own rest → own ⊆ all →
      (∀ code ∈ codes, fits code) → fits code)
    (hchoice : ∀ {labels rest test thenCode elseCode}, fits test → fits thenCode → fits elseCode →
      fits (choiceCode labels rest test thenCode elseCode))
    (h : Lowers program level labels task codes chunks rest) (hall : chunks ⊆ all) :
    (∀ code ∈ codes, fits code) ∧ AllLeave fits chunks := by
  induction h with
  | @node level labels₁ labels₂ labels₃ id item codes code chunks own hk hl hc ih =>
    obtain ⟨hchunks, hown⟩ := List.append_subset.mp hall
    obtain ⟨hcodes, hleft⟩ := ih hchunks
    have hnone : AllLeave fits own := allLeave_of_not_mem (by cases hc <;> simp)
    exact ⟨by simpa using hnode hk hl hc hown hcodes, allLeave_append.mpr ⟨hleft, hnone⟩⟩
  | @choice level labels₁ labels₂ labels₃ id condition thenBranch elseBranch test thenCode elseCode
      chunks others hk hfront helse ihf ihe =>
    obtain ⟨hchunks, hothers⟩ := List.append_subset.mp hall
    obtain ⟨hcodes, hleft⟩ := ihf hchunks
    obtain ⟨hcodes', hleft'⟩ := ihe hothers
    have hcode : fits (choiceCode labels₂ labels₃ test thenCode elseCode) :=
      hchoice (hcodes test (by simp)) (hcodes thenCode (by simp)) (hcodes' elseCode (by simp))
    exact ⟨by simpa using hcode, allLeave_append.mpr ⟨hleft, hleft'⟩⟩
  | @whereClause level labels₁ labels₂ labels₃ id inner body members code chunks others hk hd hm hb
      ihm ihb =>
    obtain ⟨hchunks, hothers⟩ := List.append_subset.mp hall
    obtain ⟨hcode, hleft⟩ := ihb hothers
    exact ⟨hcode, allLeave_append.mpr ⟨(ihm hchunks).2, hleft⟩⟩
  | noExpressions | noDefinitions | type | parameter =>
    exact ⟨by simp, allLeave_of_not_mem (by simp)⟩
  | @expressions level labels₁ labels₂ labels₃ id ids code codes chunks others hf hr ihf ihr =>
    obtain ⟨hchunks, hothers⟩ := List.append_subset.mp hall
    obtain ⟨hcodes, hleft⟩ := ihf hchunks
    obtain ⟨hcodes', hleft'⟩ := ihr hothers
    exact ⟨by simpa using ⟨hcodes code (by simp), hcodes'⟩, allLeave_append.mpr ⟨hleft, hleft'⟩⟩
  | @definitions level labels₁ labels₂ labels₃ id ids chunks others hf hr ihf ihr =>
    obtain ⟨hchunks, hothers⟩ := List.append_subset.mp hall
    exact ⟨by simp, allLeave_append.mpr ⟨(ihf hchunks).2, (ihr hothers).2⟩⟩
  | @function level labels₁ labels₂ id result body name parameters frame value chunks hk hframe hb
      ih =>
    obtain ⟨hcodes, hleft⟩ := ih (List.append_subset.mp hall).1
    -- the value of the body is what the function leaves
    have hown : AllLeave fits [.code frame (.move (.memory Ir.framePointer) value)] := by
      intro found left hm
      cases List.mem_singleton.mp hm
      exact hcodes value (by simp)
    exact ⟨by simp, allLeave_append.mpr ⟨hleft, hown⟩⟩
  | @storage level labels id written name access hk ha =>
    exact ⟨by simp, allLeave_of_not_mem (by cases access <;> simp [storageChunks])⟩

@[simp] theorem closed_slotAddress (level target : Nat) (offset : Int) :
    (slotAddress level target offset).Closed := by
  simp [slotAddress]

@[simp] theorem closed_valueAt (level : Nat) (type : Ty) (access : Access) :
    (valueAt level type access).Closed := by
  cases ha : type.isArray <;> cases access <;> simp [valueAt, ha]

@[simp] theorem closed_linkToCallee (caller callee : Nat) :
    (linkToCallee caller callee).Closed := by
  unfold linkToCallee
  split
  · trivial
  · split
    · trivial
    · exact Ir.closed_staticLink _

/-- The code of an expression is closed if the codes of its operands are. -/
theorem Combines.closed (h : Combines program level id item codes labels code own rest)
    (hc : ∀ code ∈ codes, code.Closed) : code.Closed := by
  cases h with
  | integer | logical | string | name => simp
  | routine => simpa using hc
  | call => simpa [saveFramePointer, Ir.framePointer, Ir.stackPointer] using hc
  | operation => simpa using hc
  | @assign _ _ leftCode rightCode =>
    have hleft : leftCode.Closed := hc leftCode (by simp)
    have hright : rightCode.Closed := hc rightCode (by simp)
    exact ⟨⟨hleft, hright⟩, hleft⟩
  | @index _ _ _ _ _ element => cases ha : element.isArray <;> simpa [indexed, ha] using hc
  | @unary operator => cases operator <;> simpa [unaryCode] using hc
  | @block _ codes value =>
    simp only [List.mem_append, List.mem_singleton] at hc
    simp_all
  | conditional | whileLoop | forLoop =>
    simp only [zeroAfter]
    simp_all

/-- Lowered code is closed. -/
theorem Lowers.closed (h : Lowers program level labels task codes chunks rest) :
    (∀ code ∈ codes, code.Closed) ∧ AllLeave Expr.Closed chunks :=
  h.forall_codes (fun _ _ hc _ hcodes => hc.closed hcodes)
    (fun ht hthen he => by simp [choiceCode, zeroAfter, ht, hthen, he])
    (List.Subset.refl chunks)

/-- What a node of code refers to: a name other than the frame and the stack pointer to a chunk,
and a call of code to the routine or the function that a call of the program means. -/
def Refers (program : Program) (all : List Chunk) : Tree → Prop
  | .expr (.name label) => Expr.name label = Ir.framePointer ∨ Expr.name label = Ir.stackPointer ∨
      ∃ chunk ∈ all, chunk.stored? = some label
  | .expr (.call label codes) => ∃ id callee arguments,
      program.arena.kind? id = some (.expression (.call callee arguments)) ∧
        codes.length = arguments.length + 1 ∧
        (Builtin.isRoutine callee = true ∧ label = .named callee ∨
          Builtin.isRoutine callee = false ∧ ∃ function frame,
            program.bindings.get? id = some function ∧
              program.layout.frames.get? function = some frame ∧ label = frame.label)
  | _ => True

/-- All nodes of a list refer to what is there. -/
def AllRefer (program : Program) (all : List Chunk) (nodes : List Tree) : Prop :=
  ∀ tree ∈ nodes, Refers program all tree

section AllRefer

variable {α : Type} {tree : Tree} {nodes nodes' : List Tree} {value address left right : Expr}

@[simp] theorem allRefer_nil : AllRefer program all [] := by simp [AllRefer]

@[simp] theorem allRefer_cons :
    AllRefer program all (tree :: nodes) ↔
      Refers program all tree ∧ AllRefer program all nodes := by
  simp [AllRefer]

@[simp] theorem allRefer_append :
    AllRefer program all (nodes ++ nodes') ↔
      AllRefer program all nodes ∧ AllRefer program all nodes' :=
  List.forall_mem_append

@[simp] theorem allRefer_flatMap {pick : α → List Tree} {list : List α} :
    AllRefer program all (list.flatMap pick) ↔ ∀ item ∈ list, AllRefer program all (pick item) := by
  simp only [AllRefer, List.mem_flatMap]
  exact ⟨fun h item hm tree ht => h tree ⟨item, hm, ht⟩,
    fun h tree ⟨item, hm, ht⟩ => h item hm tree ht⟩

@[simp] theorem refers_constant {number : Int} :
    Refers program all (.expr (.constant number)) := trivial

@[simp] theorem refers_memory : Refers program all (.expr (.memory address)) := trivial

@[simp] theorem refers_binop {operator : Ir.Operator} :
    Refers program all (.expr (.binop operator left right)) := trivial

@[simp] theorem refers_eseq {statement : Ir.Stmt} :
    Refers program all (.expr (.eseq statement value)) := trivial

@[simp] theorem refers_stmt {statement : Ir.Stmt} : Refers program all (.stmt statement) := trivial

@[simp] theorem refers_framePointer : Refers program all (.expr Ir.framePointer) := .inl rfl

@[simp] theorem refers_stackPointer : Refers program all (.expr Ir.stackPointer) := .inr (.inl rfl)

@[simp] theorem allRefer_framePointer : AllRefer program all Ir.framePointer.nodes := by
  simpa [Ir.framePointer] using refers_framePointer

@[simp] theorem allRefer_stackPointer : AllRefer program all Ir.stackPointer.nodes := by
  simpa [Ir.stackPointer] using refers_stackPointer

@[simp] theorem allRefer_staticLink (depth : Nat) :
    AllRefer program all (Ir.staticLink depth).nodes := by
  induction depth with
  | zero => exact allRefer_framePointer
  | succ depth ih => simpa [Ir.staticLink] using ih

@[simp] theorem allRefer_slotAddress (level target : Nat) (offset : Int) :
    AllRefer program all (slotAddress level target offset).nodes := by
  simp [slotAddress]

@[simp] theorem allRefer_linkToCallee (caller callee : Nat) :
    AllRefer program all (linkToCallee caller callee).nodes := by
  unfold linkToCallee
  split
  · simp
  · split
    · exact allRefer_framePointer
    · exact allRefer_staticLink _

/-- A value refers to its label, if it has one. -/
theorem allRefer_valueAt {type : Ty} {access : Access}
    (h : ∀ size label, access = .global size label → Refers program all (.expr (.name label))) :
    AllRefer program all (valueAt level type access).nodes := by
  cases access with
  | global size label =>
    have hlabel := h size label rfl
    cases ha : type.isArray <;> simpa [valueAt, ha] using hlabel
  | inFrame => cases ha : type.isArray <;> simp [valueAt, ha]
  | parameter => simp [valueAt]

end AllRefer

/-- The names that are bound to what has a label refer to chunks. -/
def NamesRefer (program : Program) (all : List Chunk) : Prop :=
  ∀ id word definition size label, program.arena.kind? id = some (.expression (.name word)) →
    program.bindings.get? id = some definition →
    program.layout.accesses.get? definition = some (.global size label) →
    Chunk.global (.global size label) ∈ all

/-- The code of an expression refers to what is there if the codes of its operands do. -/
theorem Combines.allRefer (hn : NamesRefer program all)
    (hk : program.arena.kind? id = some (.expression item)) {labels₁ : LabelSupply}
    (hl : Lowers program level labels₁ (.expressions item.children) codes chunks labels)
    (h : Combines program level id item codes labels code own rest) (hown : own ⊆ all)
    (hc : ∀ code ∈ codes, AllRefer program all code.nodes) : AllRefer program all code.nodes := by
  cases h with
  | integer | logical => simp
  | string =>
    have hchunk := hown (List.mem_singleton_self _)
    have hlabel : Refers program all (.expr (.name labels.label)) :=
      .inr (.inr ⟨_, hchunk, rfl⟩)
    simpa using hlabel
  | @name word definition type access _ hb _ ha =>
    refine allRefer_valueAt fun size label he => ?_
    subst he
    exact .inr (.inr ⟨_, hn id word definition size label hk hb ha, rfl⟩)
  | @routine callee arguments codes _ hr =>
    have hcall : Refers program all (.expr (.call (.named callee) (.constant 0 :: codes))) :=
      ⟨id, callee, arguments, hk, by simp [hl.length_eq, Expression.children], .inl ⟨hr, rfl⟩⟩
    simpa [hcall] using hc
  | @call callee arguments codes function frame _ hr hb hf =>
    have hcall : Refers program all
        (.expr (.call frame.label (linkToCallee level frame.level :: codes))) :=
      ⟨id, callee, arguments, hk, by simp [hl.length_eq, Expression.children],
        .inr ⟨hr, function, frame, hb, hf, rfl⟩⟩
    simpa [hcall, saveFramePointer] using hc
  | operation => simpa using hc
  | @assign _ _ leftCode rightCode =>
    have hleft := hc leftCode (by simp)
    have hright := hc rightCode (by simp)
    simp [hleft, hright]
  | @index _ _ _ _ _ element => cases ha : element.isArray <;> simpa [indexed, ha] using hc
  | @unary operator => cases operator <;> simpa [unaryCode] using hc
  | @block _ codes value =>
    simp only [List.mem_append, List.mem_singleton] at hc
    simp_all
  | conditional | whileLoop | forLoop =>
    simp only [zeroAfter]
    simp_all

/-- Lowered code refers to what is there. -/
theorem Lowers.allRefer (hn : NamesRefer program all)
    (h : Lowers program level labels task codes chunks rest) (hall : chunks ⊆ all) :
    (∀ code ∈ codes, AllRefer program all code.nodes) ∧
      AllLeave (fun value => AllRefer program all value.nodes) chunks :=
  h.forall_codes (fun hk hl hc hown hcodes => hc.allRefer hn hk hl hown hcodes)
    (fun ht hthen he => by simp [choiceCode, zeroAfter, ht, hthen, he]) hall

end Lowering

/-- A call of a function has an argument for each of its parameters. -/
theorem Typing.Typed.length_arguments {arena : Arena} {bindings : NodeTable NodeId}
    {types : NodeTable Ty} {id function result body : NodeId} {callee name : String}
    {arguments parameters : List NodeId} (h : Typed arena bindings types)
    (hk : arena.kind? id = some (.expression (.call callee arguments)))
    (hr : Builtin.isRoutine callee = false) (hb : bindings.get? id = some function)
    (hf : arena.kind? function = some (.definition (.function name parameters result body))) :
    arguments.length = parameters.length := by
  obtain ⟨type, ht⟩ := Option.isSome_iff_exists.mp (h.total hk rfl)
  obtain ⟨types, hcallee, harguments, _⟩ := (h.sound ht).derives hk
  rcases hcallee with hs | ⟨_, target, hb', htarget⟩
  · have hroutine := Builtin.isSome_signature? callee
    rw [hs, hr] at hroutine
    cases hroutine
  · cases hb.symm.trans hb'
    obtain ⟨_, _, hparameters, _, _, he⟩ := htarget.derives hf
    cases he
    rw [harguments, hparameters]

namespace Compilation

variable {compilation : Compilation} {file source : String}

/-- A call of a label with some arguments is one of a function: the label has one chunk, the code
of this function, and the arguments are the static link and one for each of its parameters. -/
def Answers (compilation : Compilation) (function : NodeId) (label : Label)
    (codes : List Ir.Expr) : Prop :=
  ∃ frame code name parameters result body,
    compilation.program.arena.kind? function =
      some (.definition (.function name parameters result body)) ∧
    Lowering.Codes compilation.program function frame code ∧ frame.label = label ∧
    compilation.chunks.toList.filter (fun chunk => chunk.label? = some label) =
      [.code frame code] ∧
    codes.length = parameters.length + 1

/-- What a call of a function calls has one chunk. -/
theorem Answers.exists_chunk {function : NodeId} {label : Label} {codes : List Ir.Expr}
    (h : compilation.Answers function label codes) : ∃ chunk,
      compilation.chunks.toList.filter (fun other => other.label? = some label) = [chunk] := by
  obtain ⟨frame, code, _, _, _, _, _, _, _, hchunk, _⟩ := h
  exact ⟨.code frame code, hchunk⟩

/-- What a node of code refers to is there once: the characters or the storage of a name, and what
a call of the program calls. -/
def Finds (compilation : Compilation) : Ir.Tree → Prop
  | .expr (.name label) =>
    Ir.Expr.name label = Ir.framePointer ∨ Ir.Expr.name label = Ir.stackPointer ∨
      ∃ chunk, chunk.stored? = some label ∧
        compilation.chunks.toList.filter (fun other => other.label? = some label) = [chunk]
  | .expr (.call label codes) => ∃ id callee arguments,
      compilation.program.arena.kind? id = some (.expression (.call callee arguments)) ∧
        (Builtin.isRoutine callee = true ∧ label = .named callee ∧
            codes.length = arguments.length + 1 ∨
          Builtin.isRoutine callee = false ∧ ∃ function,
            compilation.program.bindings.get? id = some function ∧
              compilation.Answers function label codes)
  | _ => True

end Compilation

namespace Compiled

variable {compilation : Compilation} {root id function : NodeId} {members : List NodeId}
  {labels rest : LabelSupply} {chunk : Chunk} {label : Label} {callee : String}
  {arguments : List NodeId} {codes : List Ir.Expr} {frame : Frame} {tree : Ir.Tree}

/-- No parameter is defined outside all functions. -/
theorem not_parameter (h : Compiled compilation root members labels rest) (hm : id ∈ members)
    {definition : Definition} (hd : compilation.program.arena.definition? id = some definition) :
    definition.kind ≠ .parameter := by
  obtain ⟨_, _, hs⟩ := h.prepared.tree.exists_subtree h.kind
  have hplace : (Place.definition, id) ∈ (NodeKind.definitions members).places :=
    List.mem_map.mpr ⟨id, hm, rfl⟩
  obtain ⟨_, hsub, _, _⟩ := hs.child h.kind hplace
  obtain ⟨kind, hk, hadmits, _, _⟩ := Arena.subtree_iff.mp hsub
  cases hk.symm.trans (Arena.kind?_of_definition? hd)
  cases definition with
  | parameter => cases hadmits
  | function | var | type => simp [Definition.kind]

/-- A name that means what has a label means a variable, which has storage. -/
theorem namesRefer (h : Compiled compilation root members labels rest) :
    Lowering.NamesRefer compilation.program compilation.chunks.toList := by
  intro id word definition size label hk hb ha
  have hright := h.prepared.bound id (Arena.index_lt_size hk)
  simp only [Binding.BoundRight, hk, Option.bind_some, NodeKind.accepted?, hb] at hright
  obtain ⟨target, item, he, hd, hkind⟩ := hright
  cases he
  have hnot := h.not_parameter (h.labelled.access ha).1 hd
  have hdefinition := Arena.kind?_of_definition? hd
  cases item with
  | var name written =>
    exact h.storagesOf.total definition size label (Nat.zero_le _)
      (h.index_lt hdefinition (by simp)) ⟨⟨name, written, hdefinition⟩, ha⟩
  | parameter => exact absurd rfl hnot
  | function | type => simp [Definition.kind] at hkind

/-- Characters and storage have the label of their chunk, and no other chunk has it. -/
theorem filter_stored (h : Compiled compilation root members labels rest)
    (hm : chunk ∈ compilation.chunks.toList) (hs : chunk.stored? = some label) :
    compilation.chunks.toList.filter (fun other => other.label? = some label) = [chunk] := by
  refine filter_label?_eq h.nodup_labels hm ?_
  cases chunk with
  | code => cases hs
  | data | global => exact hs

/-- A call of what is no routine is one of the function it is bound to. -/
theorem answers (h : Compiled compilation root members labels rest)
    (hk : compilation.program.arena.kind? id = some (.expression (.call callee arguments)))
    (hr : Builtin.isRoutine callee = false)
    (hb : compilation.program.bindings.get? id = some function)
    (hf : compilation.program.layout.frames.get? function = some frame)
    (hl : codes.length = arguments.length + 1) :
    compilation.Answers function frame.label codes := by
  obtain ⟨code, hm, hcodes⟩ := h.exists_code hf
  have ⟨_, name, parameters, result, body, _, hfunction, _⟩ := hcodes
  have hlength : arguments.length = parameters.length :=
    h.prepared.typed.length_arguments hk hr hb hfunction
  exact ⟨frame, code, name, parameters, result, body, hfunction, hcodes, rfl,
    filter_label?_eq h.nodup_labels hm rfl, by rw [hl, hlength]⟩

/-- What code refers to is there once. -/
theorem finds (h : Compiled compilation root members labels rest)
    (hr : Lowering.Refers compilation.program compilation.chunks.toList tree) :
    compilation.Finds tree := by
  cases tree with
  | stmt => trivial
  | expr code =>
    cases code with
    | constant | memory | binop | eseq => trivial
    | name label =>
      rcases hr with hframe | hstack | ⟨chunk, hm, hs⟩
      · exact .inl hframe
      · exact .inr (.inl hstack)
      · exact .inr (.inr ⟨chunk, hs, h.filter_stored hm hs⟩)
    | call label codes =>
      obtain ⟨id, callee, arguments, hk, hl, hmeant⟩ := hr
      refine ⟨id, callee, arguments, hk, ?_⟩
      rcases hmeant with ⟨hroutine, hlabel⟩ | ⟨hroutine, function, frame, hb, hf, hlabel⟩
      · exact .inl ⟨hroutine, hlabel, hl⟩
      · subst hlabel
        exact .inr ⟨hroutine, function, hb, h.answers hk hroutine hb hf hl⟩

/-- The code of a function is closed, and finds what it refers to. -/
theorem closed (h : Compiled compilation root members labels rest) {body : Ir.Stmt}
    (hm : Chunk.code frame body ∈ compilation.chunks.toList) :
    body.ClosedIn [] ∧ ∀ tree ∈ body.nodes, compilation.Finds tree := by
  obtain ⟨function, _, _, _, _, _, value, _, rfl, _⟩ := h.codesOf.sound frame body hm
  have hclosed : value.Closed := h.lowers.closed.2 frame value hm
  have hrefer : Lowering.AllRefer compilation.program compilation.chunks.toList value.nodes :=
    (h.lowers.allRefer h.namesRefer (List.Subset.refl _)).2 frame value hm
  refine ⟨by simpa [Ir.framePointer] using hclosed, fun tree ht => h.finds ?_⟩
  have hbody : Lowering.AllRefer compilation.program compilation.chunks.toList
      (Ir.Stmt.move (.memory Ir.framePointer) value).nodes := by
    simpa using hrefer
  exact hbody tree ht

end Compiled

namespace Compilation

variable {compilation : Compilation} {file source : String}

/-- In all code, jumps go to labels in the list of the jump, names other than the frame and the
stack pointer have one chunk with characters or storage, and calls have one chunk with the code of
the function that they are bound to, and as many arguments as it takes besides the static link. -/
theorem references_closed (h : ofSource file source = .ok compilation) :
    (∀ frame body, Chunk.code frame body ∈ compilation.chunks.toList →
      body.ClosedIn [] ∧ ∀ tree ∈ body.nodes, compilation.Finds tree) ∧
    ∀ id callee arguments,
      compilation.program.arena.kind? id = some (.expression (.call callee arguments)) →
      Builtin.isRoutine callee = false →
        ∃ function frame link codes, compilation.program.bindings.get? id = some function ∧
          compilation.program.layout.frames.get? function = some frame ∧
          compilation.trees.get? id = some (.expr (.eseq (Lowering.saveFramePointer frame)
            (.call frame.label (link :: codes)))) ∧
          compilation.Answers function frame.label (link :: codes) := by
  obtain ⟨root, members, labels, rest, hc⟩ := ofSource_compiled h
  constructor
  · exact fun frame body hm => hc.closed hm
  · intro id callee arguments hk hr
    obtain ⟨code, outer, level, before, chunks, behind, hcode, _, _, hlowers⟩ := exists_kept h hk
    obtain ⟨function, frame, codes, hb, hf, hl, hcall⟩ := hlowers.userCall hk hr
    cases hcall
    refine ⟨function, frame, _, codes, hb, hf, hcode, hc.answers hk hr hb hf ?_⟩
    simp [hl]

/-- A nested function assigns to a variable outside all functions, and its caller names this
variable. -/
theorem references_closed_of_nested :
    ∃ compilation, ofSource "test" ("fun f(n: integer): integer = g(s) \x7bwhere " ++
        "fun g(t: string): integer = (\x7bs = 'a'\x7d, n)\x7d; var s: string") =
          .ok compilation ∧
      (∃ frame body, Chunk.code frame body ∈ compilation.chunks.toList ∧
        frame.label = .generated 0 ∧ body.ClosedIn [] ∧
        ∀ tree ∈ body.nodes, compilation.Finds tree) ∧
      compilation.program.arena.kind? ⟨4⟩ = some (.expression (.call "g" [⟨3⟩])) ∧
      Builtin.isRoutine "g" = false ∧
      ∃ codes, codes.length = 2 ∧ compilation.Answers ⟨13⟩ (.generated 0) codes := by
  obtain ⟨compilation, h, hk, hb, hfunction, hframe, hchunk⟩ : ∃ compilation,
      ofSource "test" ("fun f(n: integer): integer = g(s) \x7bwhere " ++
        "fun g(t: string): integer = (\x7bs = 'a'\x7d, n)\x7d; var s: string") =
          .ok compilation ∧
      compilation.program.arena.kind? ⟨4⟩ = some (.expression (.call "g" [⟨3⟩])) ∧
      compilation.program.bindings.get? ⟨4⟩ = some ⟨13⟩ ∧
      compilation.program.arena.kind? ⟨13⟩ =
        some (.definition (.function "g" [⟨6⟩] ⟨7⟩ ⟨12⟩)) ∧
      (compilation.program.layout.frames.get? ⟨13⟩).map (·.label) = some (.generated 0) ∧
      ∃ chunk ∈ compilation.chunks.toList, chunk.frame?.map (·.label) = some (.generated 0) :=
    exists_of_any (by decide +kernel)
  obtain ⟨hcode, hcalls⟩ := references_closed h
  obtain ⟨function, frame, link, codes, hb', hf, _, hanswers⟩ :=
    hcalls ⟨4⟩ "g" [⟨3⟩] hk (by decide)
  cases hb.symm.trans hb'
  rw [hf, Option.map_some, Option.some.injEq] at hframe
  rw [hframe] at hanswers
  refine ⟨compilation, h, ?_, hk, by decide, ?_⟩
  · obtain ⟨chunk, hm, hl⟩ := hchunk
    cases chunk with
    | data | global => cases hl
    | code found body => exact ⟨found, body, hm, Option.some.inj hl, hcode found body hm⟩
  · have hlength : (link :: codes).length = 2 := by
      obtain ⟨_, _, _, _, _, _, hk', _, _, _, hlength⟩ := hanswers
      cases hfunction.symm.trans hk'
      exact hlength
    exact ⟨link :: codes, hlength, hanswers⟩

end Compilation

end Pins
