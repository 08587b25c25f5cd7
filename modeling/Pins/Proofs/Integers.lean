import Pins.Proofs.Forms
import Pins.Proofs.WellTyped

/-!
# Integers of a program

The integers that are written in a program are those of its literals and the lengths of its array
types. A literal fits a signed word, but the length of an array type only has to fit an unsigned
one. Typing does not let an array have more bytes than a signed word can count, so longer arrays
pass exactly if their elements take no bytes at all (`Compilation.integers_fit_iff`).
-/

namespace Pins

/-- The number that an integer token denotes. -/
def Token.integer? (token : Token) : Option Nat :=
  if token.kind = .integer then Text.digits? token.value.toList else none

/-- An integer token denotes a number that fits a signed word. -/
def Token.FitsSigned (token : Token) : Prop :=
  ∃ value, Text.digits? token.value.toList = some value ∧ value ≤ Text.maxSigned

instance (token : Token) : Decidable token.FitsSigned :=
  decidable_of_iff ((Text.digits? token.value.toList).any (· ≤ Text.maxSigned)) <| by
    simp [Token.FitsSigned, Option.any_eq_true]

/-- The numbers that the integer tokens among some denote. -/
def integers (tokens : List Token) : List Nat := tokens.filterMap Token.integer?

@[simp] theorem integers_nil : integers [] = [] := rfl

@[simp] theorem integers_append (tokens others : List Token) :
    integers (tokens ++ others) = integers tokens ++ integers others :=
  List.filterMap_append

/-- A token of another kind denotes no number. -/
theorem integers_cons {token : Token} (h : token.kind ≠ .integer) (rest : List Token) :
    integers (token :: rest) = integers rest :=
  List.filterMap_cons_none (if_neg h)

/-- An integer token denotes a number. -/
theorem integers_cons_integer {token : Token} {value : Nat} (h : token.kind = .integer)
    (hvalue : Text.digits? token.value.toList = some value) (rest : List Token) :
    integers (token :: rest) = value :: integers rest :=
  List.filterMap_cons_some ((if_pos h).trans hvalue)

namespace NodeForm

/-- The number that a node is written with. -/
def integer? : NodeForm → Option Nat
  | .literal value .integer => Text.digits? value.toList
  | .arrayType size => some size
  | _ => none

/-- The number that a node is written with fits a signed word, or it is the length of an array type
and fits an unsigned one. -/
def Fits (form : NodeForm) : Prop :=
  ∀ value, form.integer? = some value →
    value ≤ Text.maxSigned ∨ value ≤ Text.maxUnsigned ∧ form = .arrayType value

end NodeForm

namespace SyntaxTree

/-- The numbers that the nodes of a tree are written with. -/
def numbers (tree : SyntaxTree) : List Nat := tree.forms.filterMap NodeForm.integer?

theorem numbers_node (form : NodeForm) (below : List SyntaxTree) :
    (node form below).numbers = form.integer?.toList ++ below.flatMap numbers := by
  have hbelow : (below.flatMap forms).filterMap NodeForm.integer? = below.flatMap numbers :=
    List.filterMap_flatMap
  rw [numbers, forms, formsOf_eq, ← hbelow]
  cases h : form.integer? with
  | none => rw [List.filterMap_cons_none h]; rfl
  | some value => rw [List.filterMap_cons_some h]; rfl

/-- All numbers that the nodes of a tree are written with fit. -/
def Fits (tree : SyntaxTree) : Prop := ∀ form ∈ tree.forms, form.Fits

theorem fits_node {form : NodeForm} {below : List SyntaxTree} :
    (node form below).Fits ↔ form.Fits ∧ ∀ tree ∈ below, tree.Fits := forall_forms_node

end SyntaxTree

namespace Symbol

variable {symbol : Symbol} {tokens : List Token} {trees : List SyntaxTree}

/-- The marks between what a symbol repeats. -/
def marks : Symbol → List TokenKind
  | .optional symbol => symbol.marks
  | .separated symbol mark => mark :: symbol.marks
  | _ => []

/-- No operator between operands is written as an integer. -/
theorem ne_integer_of_operator? {level : Precedence} {kind : TokenKind} {operator : BinaryOperator}
    (h : level.operator? kind = some operator) : kind ≠ .integer := by
  rintro rfl
  cases level <;> cases h

/-- No operator in front of an operand is written as an integer. -/
theorem ne_integer_of_ofMark? {kind : TokenKind} {operator : UnaryOperator}
    (h : UnaryOperator.ofMark? kind = some operator) : kind ≠ .integer := by
  rintro rfl
  cases h

/-- No atomic type is written as an integer. -/
theorem ne_integer_of_ofWord? {kind : TokenKind} {atom : Atom} (h : Atom.ofWord? kind = some atom) :
    kind ≠ .integer := by
  rintro rfl
  cases h

/-- The integers among the tokens that are derived from a symbol are those in the trees. -/
theorem Derives.mem_integers_iff (h : symbol.Derives tokens trees) (hm : .integer ∉ symbol.marks)
    (value : Nat) : value ∈ integers tokens ↔ value ∈ trees.flatMap SyntaxTree.numbers := by
  induction h
  case absent => simp
  case more hbetween _ _ ih ihothers =>
    have hkind := List.ne_of_not_mem_cons hm
    simp only [integers_append, integers_cons (hbetween ▸ hkind.symm), List.mem_append,
      List.flatMap_append, ih (List.not_mem_of_not_mem_cons hm), ihothers hm]
  case integer hkind hvalue _ =>
    simp [integers_cons_integer hkind hvalue, SyntaxTree.numbers_node, NodeForm.integer?, hvalue]
  case arrayType hmarks hsize _ _ ih =>
    simp only [List.map_cons, List.map_nil, List.cons.injEq, and_true] at hmarks
    obtain ⟨hword, hopened, hlength, hclosed⟩ := hmarks
    rw [integers_cons (by simp [hword]), integers_cons (by simp [hopened]),
      integers_cons_integer hlength hsize, integers_cons (by simp [hclosed])]
    simp [SyntaxTree.numbers_node, NodeForm.integer?, ih hm]
  case atomType hword =>
    have hkind := ne_integer_of_ofWord? hword
    simp [integers_cons hkind, SyntaxTree.numbers_node, NodeForm.integer?]
  case chained hmark _ _ _ ihleft ihright =>
    have hkind := ne_integer_of_operator? hmark
    simp [integers_cons hkind, SyntaxTree.numbers_node, NodeForm.integer?, ihleft hm, ihright hm]
  case comparison hmark _ _ ihleft ihright =>
    have hkind := ne_integer_of_operator? hmark
    simp [integers_cons hkind, SyntaxTree.numbers_node, NodeForm.integer?, ihleft hm, ihright hm]
  case prefixed hmark _ ih =>
    have hkind := ne_integer_of_ofMark? hmark
    simp [integers_cons hkind, SyntaxTree.numbers_node, NodeForm.integer?, ih hm]
  case whereClause ihoperation ihdefinitions =>
    -- the definitions stand behind the expression, but in front of it in the tree
    simp_all [integers_cons, SyntaxTree.numbers_node, NodeForm.integer?, marks, or_comm]
  all_goals
    simp_all [integers_cons, SyntaxTree.numbers_node, NodeForm.integer?, marks]

/-- The numbers in the trees of a symbol fit. -/
theorem Derives.fits (h : symbol.Derives tokens trees) : ∀ tree ∈ trees, tree.Fits := by
  induction h
  case integer hvalue hfits =>
    simp [SyntaxTree.fits_node, NodeForm.Fits, NodeForm.integer?, hvalue, Text.maxSigned, hfits]
  case arrayType hfits _ ih =>
    simpa [SyntaxTree.fits_node, NodeForm.Fits, NodeForm.integer?, Text.maxUnsigned, hfits] using ih
  case more ih ihothers => exact List.forall_mem_append.mpr ⟨ih, ihothers⟩
  all_goals
    simp_all [SyntaxTree.fits_node, NodeForm.Fits, NodeForm.integer?, or_imp]

end Symbol

/-- The integers among the tokens of a program are the numbers that its nodes are written with, and
these fit. -/
theorem integers_of_parse {file : String} {tokens : List Token} {arena : Arena}
    (hl : Lexed tokens) (h : parse file tokens = .ok arena) :
    (∀ value, value ∈ integers tokens ↔
      ∃ id kind, arena.kind? id = some kind ∧ kind.form.integer? = some value) ∧
    ∀ id kind, arena.kind? id = some kind → kind.form.Fits := by
  obtain ⟨program, hd, hforms⟩ := exists_forms_of_parse hl h
  constructor
  · intro value
    have hnumbers : value ∈ integers tokens ↔ value ∈ program.numbers := by
      simpa using hd.mem_integers_iff (List.not_mem_nil) value
    rw [hnumbers, SyntaxTree.numbers, List.mem_filterMap]
    constructor
    · rintro ⟨form, hform, hvalue⟩
      obtain ⟨id, kind, hk, rfl⟩ := (hforms form).mp hform
      exact ⟨id, kind, hk, hvalue⟩
    · rintro ⟨id, kind, hk, hvalue⟩
      exact ⟨kind.form, (hforms kind.form).mpr ⟨id, kind, hk, rfl⟩, hvalue⟩
  · intro id kind hk
    exact hd.fits program List.mem_cons_self _ ((hforms kind.form).mpr ⟨id, kind, hk, rfl⟩)

namespace Ty

mutual

/-- The lengths of all arrays in a type. -/
def lengths : Ty → List Nat
  | array length element => length :: element.lengths
  | function parameters result => lengthsOf parameters ++ result.lengths
  | _ => []

/-- The lengths of all arrays in types. -/
def lengthsOf : List Ty → List Nat
  | [] => []
  | type :: rest => type.lengths ++ lengthsOf rest

end

@[simp] theorem lengthsOf_eq (types : List Ty) : lengthsOf types = types.flatMap lengths := by
  induction types with
  | nil => rfl
  | cons type rest ih => rw [lengthsOf, ih, List.flatMap_cons]

end Ty

namespace Builtin

/-- No routine yields an array. -/
theorem lengths_of_mem_routines : ∀ routine ∈ routines, routine.2.2.lengths = [] := by decide

/-- There is no array in the result of a routine. -/
theorem lengths_of_signature? {callee : String} {parameters : List Ty} {result : Ty}
    (h : signature? callee = some (.function parameters result)) : result.lengths = [] := by
  obtain ⟨_, _, he, hm⟩ := signature?_eq_some h
  cases he
  exact lengths_of_mem_routines _ hm

end Builtin

namespace Typing

variable {arena : Arena} {bindings : NodeTable NodeId} {id : NodeId} {type : Ty} {length : Nat}

/-- Every length in the type of a node is that of an array type that is written somewhere. -/
theorem HasType.exists_array (h : HasType arena bindings id type) (hm : length ∈ type.lengths) :
    ∃ id element, arena.kind? id = some (.type (.array length element)) := by
  induction h with
  | @atom _ word _ | @literal _ _ word _ => cases word <;> cases hm
  | array hk _ _ ih =>
    rcases List.mem_cons.mp hm with rfl | hinner
    · exact ⟨_, _, hk⟩
    · exact ih hinner
  | typeName _ _ _ ih | storage _ _ _ ih | name _ _ _ ih | block _ _ _ ih | whereClause _ _ ih =>
    exact ih hm
  | function _ hlength _ _ ihparameters ihresult =>
    rw [Ty.lengths, Ty.lengthsOf_eq, List.mem_append, List.mem_flatMap] at hm
    rcases hm with ⟨type, htype, hm⟩ | hm
    · obtain ⟨parameter, hentry⟩ := exists_zip_mem hlength htype
      exact ihparameters _ hentry hm
    · exact ihresult hm
  | routine _ hs =>
    rw [Builtin.lengths_of_signature? hs] at hm
    cases hm
  | call _ _ _ _ _ _ ih =>
    refine ih ?_
    rw [Ty.lengths]
    exact List.mem_append_right _ hm
  | binary _ _ _ hc ihleft =>
    rcases combined?_cases hc with rfl | rfl | ⟨length, rfl⟩ | rfl
    · cases hm
    · cases hm
    · exact ihleft (List.mem_cons_of_mem _ hm)
    · exact ihleft hm
  | @unary _ _ operator _ _ _ _ ha =>
    obtain ⟨_, rfl⟩ := applied?_eq_some_iff.mp ha
    cases operator <;> cases hm
  | conditional | whileLoop | forLoop => cases hm

end Typing

namespace Lexed

variable {tokens : List Token} {token : Token}

/-- An integer token of a text denotes one of its integers. -/
theorem exists_integer (h : Lexed tokens) (hm : token ∈ tokens) (hk : token.kind = .integer) :
    ∃ value ∈ integers tokens, Text.digits? token.value.toList = some value := by
  obtain ⟨value, hvalue⟩ : ∃ value, Text.digits? token.value.toList = some value := by
    induction h with
    | last he =>
      rw [List.mem_singleton.mp hm, he] at hk
      cases hk
    | cons hne hdigits _ ih =>
      rcases List.mem_cons.mp hm with rfl | hrest
      · exact hdigits hk
      · exact ih hrest
  exact ⟨value, List.mem_filterMap.mpr ⟨token, hm, (if_pos hk).trans hvalue⟩, hvalue⟩

/-- All integer tokens fit a signed word if all integers do. -/
theorem forall_fitsSigned_iff (h : Lexed tokens) :
    (∀ token ∈ tokens, token.kind = .integer → token.FitsSigned) ↔
      ∀ value ∈ integers tokens, value ≤ Text.maxSigned := by
  constructor
  · intro hfits value hm
    obtain ⟨token, htoken, hvalue⟩ := List.mem_filterMap.mp hm
    unfold Token.integer? at hvalue
    split at hvalue
    · next hk =>
      obtain ⟨other, hother, hle⟩ := hfits token htoken hk
      cases hvalue.symm.trans hother
      exact hle
    · cases hvalue
  · intro hle token htoken hk
    obtain ⟨value, hm, hvalue⟩ := h.exists_integer htoken hk
    exact ⟨value, hvalue, hle value hm⟩

end Lexed

/-- A node with the form of an array type is one. -/
theorem NodeKind.exists_array {kind : NodeKind} {length : Nat} (h : kind.form = .arrayType length) :
    ∃ element, kind = .type (.array length element) := by
  rcases kind with members | item | item | item
  · cases h
  · cases item <;> cases h
  · cases item <;> cases h
  · cases item with
    | array size element =>
      cases h
      exact ⟨element, rfl⟩
    | atom | name => cases h

namespace Compilation

variable {compilation : Compilation} {file source : String}

/-- An array type of a length is written whose elements take no bytes. -/
def HasVacantArray (compilation : Compilation) (length : Nat) : Prop :=
  ∃ id element type,
    compilation.program.arena.kind? id = some (.type (.array length element)) ∧
    compilation.program.types.get? element = some type ∧ type.bytes = 0

/-- A compilation is that of some tokens, as far as their integers go. -/
structure Written (compilation : Compilation) (tokens : List Token) : Prop where
  /-- The tokens are those of a text. -/
  lexed : Lexed tokens
  /-- The program is typed. -/
  typed : Typing.Typed compilation.program.arena compilation.program.bindings
    compilation.program.types
  /-- The integers are those that nodes are written with. -/
  mem_iff : ∀ value, value ∈ integers tokens ↔ ∃ id kind,
    compilation.program.arena.kind? id = some kind ∧ kind.form.integer? = some value
  /-- The numbers that nodes are written with fit. -/
  fits : ∀ id kind, compilation.program.arena.kind? id = some kind → kind.form.Fits

/-- A compilation is that of the tokens of its source. -/
theorem ofSource_written (h : ofSource file source = .ok compilation) :
    ∃ tokens, tokenize file source = .ok tokens ∧ compilation.Written tokens := by
  obtain ⟨tokens, arena, ht, hp, ha⟩ := ofSource_eq_ok h
  obtain ⟨bindings, types, layout, labels, hb, hty, _, _, hprogram⟩ := ofArena_eq_ok ha
  have hl := lexed_of_tokenize ht
  have htree := parse_isTree hp
  have htyped := Typing.ofArena_typed htree (Binding.ofArena_bound htree hb) hty
  obtain ⟨hmem, hfits⟩ := integers_of_parse hl hp
  refine ⟨tokens, ht, hl, ?_, ?_, ?_⟩ <;> rw [hprogram] <;> assumption

namespace Written

variable {tokens : List Token} {length value : Nat} {id element : NodeId}

/-- An array is not longer than a signed word can say, or its elements take no bytes. -/
theorem le_or_vacant (h : compilation.Written tokens)
    (hk : compilation.program.arena.kind? id = some (.type (.array length element))) :
    length ≤ Text.maxSigned ∨ compilation.HasVacantArray length := by
  obtain ⟨type, htype⟩ := h.typed.wellTyped.total hk rfl
  obtain ⟨inner, hinner, hsize, _⟩ := htype.derives hk
  rcases Nat.eq_zero_or_pos inner.bytes with hzero | hpos
  · exact .inr ⟨id, element, inner, hk, h.typed.get?_eq_some_iff.mpr hinner, hzero⟩
  · have hle : length * 1 ≤ length * inner.bytes := Nat.mul_le_mul_left length hpos
    have hbytes : length * inner.bytes ≤ Text.maxSigned := hsize
    omega

/-- The length of an array type is an integer of the source. -/
theorem length_mem (h : compilation.Written tokens)
    (hk : compilation.program.arena.kind? id = some (.type (.array length element))) :
    length ∈ integers tokens :=
  (h.mem_iff length).mpr ⟨id, _, hk, rfl⟩

/-- An integer fits a signed word or is the length of an array whose elements take no bytes. -/
theorem fits_or_vacant (h : compilation.Written tokens) (hm : value ∈ integers tokens) :
    value ≤ Text.maxSigned ∨ value ≤ Text.maxUnsigned ∧ compilation.HasVacantArray value := by
  obtain ⟨id, kind, hk, hvalue⟩ := (h.mem_iff value).mp hm
  rcases h.fits id kind hk value hvalue with hle | ⟨hle, hform⟩
  · exact .inl hle
  · obtain ⟨element, rfl⟩ := NodeKind.exists_array hform
    exact (h.le_or_vacant hk).imp_right fun hvacant => ⟨hle, hvacant⟩

/-- All integers fit a signed word if the lengths of arrays without bytes do. -/
theorem forall_le_iff (h : compilation.Written tokens) :
    (∀ value ∈ integers tokens, value ≤ Text.maxSigned) ↔
      ∀ length, compilation.HasVacantArray length → length ≤ Text.maxSigned := by
  constructor
  · rintro hle length ⟨id, element, type, hk, _⟩
    exact hle length (h.length_mem hk)
  · intro hvacant value hm
    rcases h.fits_or_vacant hm with hle | ⟨_, hlength⟩
    · exact hle
    · exact hvacant value hlength

/-- All integers fit a signed word if the lengths in all types do. -/
theorem forall_le_iff_lengths (h : compilation.Written tokens) :
    (∀ value ∈ integers tokens, value ≤ Text.maxSigned) ↔
      ∀ id type, compilation.program.types.get? id = some type →
        ∀ length ∈ type.lengths, length ≤ Text.maxSigned := by
  constructor
  · intro hle id type htype length hm
    obtain ⟨array, element, hk⟩ := (h.typed.sound htype).exists_array hm
    exact hle length (h.length_mem hk)
  · intro hlengths
    refine h.forall_le_iff.mpr ?_
    rintro length ⟨id, element, _, hk, _⟩
    obtain ⟨type, htype⟩ := h.typed.wellTyped.total hk rfl
    obtain ⟨inner, _, _, rfl⟩ := htype.derives hk
    exact hlengths id _ (h.typed.get?_eq_some_iff.mpr htype) length List.mem_cons_self

end Written

/-- Every integer token of a compiled source denotes a number. It fits a signed word, unless it is
the length of an array whose elements take no bytes; it fits an unsigned one then. So all integers
fit a signed word exactly if the lengths of such arrays do, and exactly if the lengths of all arrays
in the types of the program do. -/
theorem integers_fit_iff (h : ofSource file source = .ok compilation) :
    ∃ tokens, tokenize file source = .ok tokens ∧
      (∀ token ∈ tokens, token.kind = .integer →
        ∃ value, Text.digits? token.value.toList = some value ∧
          (value ≤ Text.maxSigned ∨
            value ≤ Text.maxUnsigned ∧ compilation.HasVacantArray value)) ∧
      ((∀ token ∈ tokens, token.kind = .integer → token.FitsSigned) ↔
        ∀ length, compilation.HasVacantArray length → length ≤ Text.maxSigned) ∧
      ((∀ token ∈ tokens, token.kind = .integer → token.FitsSigned) ↔
        ∀ id type, compilation.program.types.get? id = some type →
          ∀ length ∈ type.lengths, length ≤ Text.maxSigned) := by
  obtain ⟨tokens, ht, hw⟩ := ofSource_written h
  have hfits := hw.lexed.forall_fitsSigned_iff
  refine ⟨tokens, ht, ?_, hfits.trans hw.forall_le_iff, hfits.trans hw.forall_le_iff_lengths⟩
  intro token htoken hk
  obtain ⟨value, hm, hvalue⟩ := hw.lexed.exists_integer htoken hk
  exact ⟨value, hvalue, hw.fits_or_vacant hm⟩

/-- A program with an array of the largest length, whose elements take no bytes: all integers fit,
so the lengths in all types do. -/
theorem integers_fit_of_largest : ∃ compilation,
    ofSource "test" "typ t: arr[2147483647] arr[0] integer" = .ok compilation ∧
      ∀ id type, compilation.program.types.get? id = some type →
        ∀ length ∈ type.lengths, length ≤ Text.maxSigned := by
  have hs : (ofSource "test" "typ t: arr[2147483647] arr[0] integer").isOk = true := by
    decide +kernel
  obtain ⟨compilation, hc⟩ := exists_of_isOk hs
  obtain ⟨tokens, ht, _, _, hlengths⟩ := integers_fit_iff hc
  have hall : (tokenize "test" "typ t: arr[2147483647] arr[0] integer").toOption.all
      (·.all fun token => decide (token.kind = .integer → token.FitsSigned)) = true := by
    decide +kernel
  have hfits : ∀ token ∈ tokens, token.kind = .integer → token.FitsSigned := by
    simpa [ht, Except.toOption, imp_iff_not_or] using hall
  exact ⟨compilation, hc, hlengths.mp hfits⟩

/-- The length of an array whose elements take no bytes may exceed a signed word. -/
theorem integer_exceeds_of_vacant_array : ∃ compilation tokens,
    ofSource "test.pins" "typ t: arr[2147483648] arr[0] integer" = .ok compilation ∧
      tokenize "test.pins" "typ t: arr[2147483648] arr[0] integer" = .ok tokens ∧
      ∃ token ∈ tokens, token.kind = .integer ∧ ¬token.FitsSigned := by
  have hs : (ofSource "test.pins" "typ t: arr[2147483648] arr[0] integer").isOk = true := by
    decide +kernel
  obtain ⟨compilation, hc⟩ := exists_of_isOk hs
  obtain ⟨tokens, _, ht, _, _⟩ := ofSource_eq_ok hc
  have hany : (tokenize "test.pins" "typ t: arr[2147483648] arr[0] integer").toOption.any
      (·.any fun token => decide (token.kind = .integer ∧ ¬token.FitsSigned)) = true := by
    decide +kernel
  exact ⟨compilation, tokens, hc, ht, by simpa [ht, Except.toOption] using hany⟩

end Compilation

end Pins
