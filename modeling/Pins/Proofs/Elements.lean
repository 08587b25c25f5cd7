import Pins.Proofs.Assembled
import Pins.Proofs.Bases
import Pins.Proofs.Execution
import Pins.Proofs.Shape

/-!
# The elements of arrays

Indices behind the name of an array reach an element of it. Its code adds one product to the address
of the array for each index, of the index and the stride of its dimension, and reads memory only if
the element is no array itself (`Compilation.elements_right`). Run, it finds the displacement that
the shape of the array gives the values of the indices (`Ir.computes_elementAddress_iff`). As all
types in a program can be measured, neither a product nor the sum leaves a signed word as long as
the indices are in bounds (`Shape.Fits`).
-/

namespace Pins

/-- Indices are applied to an array one behind the other. -/
inductive Arena.Indexes (arena : Arena) (array : NodeId) : List NodeId → NodeId → Prop where
  | none : Indexes arena array [] array
  | index {indices : List NodeId} {inner index id : NodeId}
      (h : Indexes arena array indices inner)
      (hk : arena.kind? id = some (.expression (.binary .index inner index))) :
      Indexes arena array (indices ++ [index]) id

namespace Ir

variable {address : Label → Int32} {base code : Expr} {codes : List Expr} {strides : List Nat}
  {stride : Nat} {before after : Memory} {value : Int32} {shape : List Nat}

/-- The code of the address of an element: for each index its product with a stride is added to a
base. -/
def elementAddress (base : Expr) (codes : List Expr) (strides : List Nat) : Expr :=
  (codes.zip strides).foldl
    (fun place entry => .binop .add place (.binop .mul entry.1 (.constant entry.2))) base

/-- The code of an element at an address: the value kept there, or the address if it is an array
itself. -/
def elementCode (type : Ty) (place : Expr) : Expr := if type.isArray then place else .memory place

/-- A further index is applied behind the others. -/
theorem elementAddress_concat (hs : strides[codes.length]? = some stride) :
    elementAddress base (codes ++ [code]) strides =
      .binop .add (elementAddress base codes strides) (.binop .mul code (.constant stride)) := by
  induction codes generalizing base strides with
  | nil =>
    cases strides with
    | nil => cases hs
    | cons first others =>
      cases hs
      rfl
  | cons first others ih =>
    cases strides with
    | nil => cases hs
    | cons step steps => exact ih hs

/-- Codes are run one behind the other, each for a value. -/
inductive ComputesAll (address : Label → Int32) :
    List Expr → Memory → List Int32 → Memory → Prop where
  | nil {memory : Memory} : ComputesAll address [] memory [] memory
  | cons {code : Expr} {codes : List Expr} {before between after : Memory} {value : Int32}
      {values : List Int32} (hc : Computes address code before value between)
      (hr : ComputesAll address codes between values after) :
      ComputesAll address (code :: codes) before (value :: values) after

/-- A row is added to a place. -/
theorem computes_row_iff : Computes address
      (.binop .add base (.binop .mul code (.constant stride))) before value after ↔
    ∃ place between index, Computes address base before place between ∧
      Computes address code between index after ∧
        value = place + Int32.ofInt (index.toInt * stride) := by
  simp only [computes_binop_iff, computes_constant_iff, Operator.apply?, Option.some.injEq,
    Int32.ofInt_mul, Int32.ofInt_toInt]
  constructor
  · rintro ⟨place, between, _, hplace, ⟨index, _, _, hindex, ⟨rfl, rfl⟩, rfl⟩, rfl⟩
    exact ⟨place, between, index, hplace, hindex, rfl⟩
  · rintro ⟨place, between, index, hplace, hindex, rfl⟩
    exact ⟨place, between, _, hplace, ⟨index, _, _, hindex, ⟨rfl, rfl⟩, rfl⟩, rfl⟩

/-- The address of an element is that of the array and the displacement of the indices. -/
theorem computes_elementAddress_iff (hlength : codes.length ≤ shape.length) :
    Computes address (elementAddress base codes (Shape.strides shape)) before value after ↔
      ∃ place between values, Computes address base before place between ∧
        ComputesAll address codes between values after ∧
          value = place + Int32.ofInt (Shape.displacement shape (values.map Int32.toInt)) := by
  induction codes generalizing base before shape with
  | nil =>
    constructor
    · intro h
      exact ⟨value, after, [], h, .nil, (Int32.add_zero value).symm⟩
    · rintro ⟨place, between, values, hplace, hnil, rfl⟩
      cases hnil
      have hnothing : Int32.ofInt 0 = 0 := rfl
      rwa [List.map_nil, Shape.displacement_nil, hnothing, Int32.add_zero]
  | cons code codes ih =>
    cases shape with
    | nil => cases hlength
    | cons length inner =>
      have hstep : elementAddress base (code :: codes) (Shape.strides (length :: inner)) =
          elementAddress (.binop .add base (.binop .mul code (.constant (Shape.bytes inner))))
            codes (Shape.strides inner) := rfl
      rw [hstep, ih (Nat.le_of_succ_le_succ hlength)]
      constructor
      · rintro ⟨_, between, values, hrow, hrest, rfl⟩
        obtain ⟨place, first, index, hplace, hindex, rfl⟩ := computes_row_iff.mp hrow
        refine ⟨place, first, index :: values, hplace, .cons hindex hrest, ?_⟩
        rw [List.map_cons, Shape.displacement_cons, Int32.ofInt_add, Int32.add_assoc]
      · rintro ⟨place, first, values, hplace, hall, rfl⟩
        cases hall with
        | @cons _ _ _ between _ index values hindex hrest =>
          refine ⟨_, between, values,
            computes_row_iff.mpr ⟨place, first, index, hplace, hindex, rfl⟩, hrest, ?_⟩
          rw [List.map_cons, Shape.displacement_cons, Int32.ofInt_add, Int32.add_assoc]

end Ir

namespace Typing

variable {arena : Arena} {bindings : NodeTable NodeId} {type : Ty}

/-- An array is indexed by an integer, for one of its elements. -/
theorem combined?_index_iff {left right : Ty} : combined? .index left right = some type ↔
    (∃ length, left = .array length type) ∧ right = .integer := by
  constructor
  · intro h
    unfold combined? at h
    split at h <;> simp_all
  · rintro ⟨⟨length, rfl⟩, rfl⟩
    rfl

/-- As many integers index an array as it has lengths, or fewer. They reach an array of what is left
of its shape. -/
theorem HasType.of_indexes {array id : NodeId} {indices : List NodeId} {shape : List Nat}
    {scalar : Ty} (ha : HasType arena bindings array (.arrays shape scalar))
    (hi : arena.Indexes array indices id) (hs : scalar.isAtomic = true)
    (ht : HasType arena bindings id type) :
    indices.length ≤ shape.length ∧ type = .arrays (shape.drop indices.length) scalar ∧
      ∀ index ∈ indices, HasType arena bindings index .integer := by
  induction hi generalizing type with
  | none => exact ⟨Nat.zero_le _, ht.unique ha, by simp⟩
  | @index indices inner index id _ hk ih =>
    obtain ⟨left, right, hleft, hright, hc⟩ := ht.derives hk
    obtain ⟨⟨length, rfl⟩, rfl⟩ := combined?_index_iff.mp hc
    obtain ⟨hle, harrays, hindices⟩ := ih hleft
    obtain ⟨hlt, rfl⟩ := Ty.arrays_drop_eq_array hs harrays.symm
    rw [List.length_append, List.length_singleton]
    refine ⟨hlt, rfl, fun other hm => ?_⟩
    rcases List.mem_append.mp hm with hm | hm
    · exact hindices other hm
    · exact List.mem_singleton.mp hm ▸ hright

end Typing

namespace Compilation

open Lowering (Bases KeepsAll)

variable {file source word : String} {compilation : Compilation} {array id definition : NodeId}
  {indices : List NodeId} {shape : List Nat} {scalar : Ty}

/-- What the passes make of indices behind the name of an array with scalar elements. -/
structure ElementRight (compilation : Compilation) (array : NodeId) (indices : List NodeId)
    (id definition : NodeId) (shape : List Nat) (scalar : Ty) : Prop where
  /-- The name means the definition. -/
  bound : compilation.program.bindings.get? array = some definition
  /-- The definition is one of arrays of the shape. -/
  arrays : compilation.program.types.get? definition = some (.arrays shape scalar)
  /-- The elements are scalars. -/
  atomic : scalar.isAtomic = true
  /-- There are no more indices than lengths. -/
  depth : indices.length ≤ shape.length
  /-- The indices are integers. -/
  integers : ∀ index ∈ indices, compilation.program.types.get? index = some .integer
  /-- What the indices reach is of what is left of the shape. -/
  reached : compilation.program.types.get? id = some (.arrays (shape.drop indices.length) scalar)
  /-- A stride is the size of the elements behind its index. -/
  strides : ∀ dimension < shape.length, (Shape.strides shape)[dimension]? =
    (Ty.arrays (shape.drop (dimension + 1)) scalar).size?
  /-- The code is that of an element at an address: that of the array, and a product of the code of
  each index and its stride. Run, it finds the displacement of the values of the indices. -/
  lowered : ∃ outer level base codes, compilation.program.arena.Encloses outer array ∧
    compilation.program.arena.Level outer level ∧
      Bases compilation.program level definition base ∧
        KeepsAll compilation.trees indices codes ∧
          compilation.trees.get? id =
            some (.expr (Ir.elementCode (.arrays (shape.drop indices.length) scalar)
              (Ir.elementAddress base codes (Shape.strides shape)))) ∧
            ∀ address before value after,
              Ir.Computes address (Ir.elementAddress base codes (Shape.strides shape)) before value
                  after ↔
                ∃ place between values, Ir.Computes address base before place between ∧
                  Ir.ComputesAll address codes between values after ∧
                    value = place +
                      Int32.ofInt (Shape.displacement shape (values.map Int32.toInt))

/-- The arrays in a program can be measured, and so can their elements. -/
theorem size?_arrays (h : ofSource file source = .ok compilation)
    (ht : compilation.program.types.get? id = some (.arrays shape scalar))
    (hs : scalar.isAtomic = true) {inner : List Nat} (hi : inner <:+ shape) :
    (Ty.arrays inner scalar).size? = some (Shape.bytes inner) := by
  have hmeasured := ((ofSource_prepared h).typed.sound ht).isMeasured
  obtain ⟨size, hsize⟩ := Option.isSome_iff_exists.mp (Ty.isSome_size?_of_isMeasured hmeasured)
  obtain ⟨_, hall⟩ := (Ty.size?_arrays_iff hs).mp hsize
  exact (Ty.size?_arrays_iff hs).mpr ⟨rfl, fun other ho => hall other (ho.trans hi)⟩

/-- A name for an array is lowered to the address of the array. -/
theorem exists_base (h : ofSource file source = .ok compilation)
    (hk : compilation.program.arena.kind? array = some (.expression (.name word)))
    (hb : compilation.program.bindings.get? array = some definition)
    (ht : compilation.program.types.get? definition = some (.arrays shape scalar))
    (hs : scalar.isAtomic = true) (hne : shape ≠ []) :
    ∃ outer level base, compilation.program.arena.Encloses outer array ∧
      compilation.program.arena.Level outer level ∧
        Bases compilation.program level definition base ∧
          compilation.trees.get? array =
            some (.expr (Ir.elementCode (.arrays shape scalar) base)) := by
  obtain ⟨_, outer, level, _, _, _, _, hcode, he, hl, _, hcombines⟩ := exists_assembled h hk rfl
  cases hcombines with
  | name hb' ht' ha =>
    cases hb.symm.trans hb'
    cases ht.symm.trans ht'
    have harray : (Ty.arrays shape scalar).isArray = true := by
      rw [Ty.isArray_arrays hs, List.isEmpty_eq_false_iff.mpr hne, Bool.not_false]
    refine ⟨outer, level, _, he, hl, bases h hk hb ha he hl harray, ?_⟩
    rw [Ir.elementCode, if_pos harray]
    exact hcode

/-- If what is indexed was lowered to the code of an element, so is what the index reaches: there is
a length left, so the code so far is an address. -/
theorem exists_indexed (h : ofSource file source = .ok compilation) {inner index : NodeId}
    (hk : compilation.program.arena.kind? id = some (.expression (.binary .index inner index)))
    {dimension : Nat} {place : Ir.Expr}
    (ht : compilation.program.types.get? inner = some (.arrays (shape.drop dimension) scalar))
    (hs : scalar.isAtomic = true)
    (hinner : compilation.trees.get? inner =
      some (.expr (Ir.elementCode (.arrays (shape.drop dimension) scalar) place))) :
    ∃ code stride, compilation.trees.get? index = some (.expr code) ∧
      (Shape.strides shape)[dimension]? = some stride ∧
        compilation.trees.get? id =
          some (.expr (Ir.elementCode (.arrays (shape.drop (dimension + 1)) scalar)
            (.binop .add place (.binop .mul code (.constant stride))))) := by
  obtain ⟨_, _, _, _, _, _, _, hcode, _, _, hoperands, hcombines⟩ := exists_assembled h hk rfl
  cases hcombines with
  | operation ho => cases ho
  | @index _ _ leftCode rightCode type element stride _ ht' helement hsize =>
    cases ht.symm.trans ht'
    obtain ⟨hleft, hright⟩ : compilation.trees.get? inner = some (.expr leftCode) ∧
        compilation.trees.get? index = some (.expr rightCode) := by
      simpa [KeepsAll, Expression.children] using hoperands
    obtain ⟨length, harray⟩ : ∃ length,
        Ty.arrays (shape.drop dimension) scalar = .array length element := by
      cases hshape : Ty.arrays (shape.drop dimension) scalar <;> simp_all [Ty.element?]
    obtain ⟨hlt, rfl⟩ := Ty.arrays_drop_eq_array hs harray
    obtain ⟨rfl, _⟩ := (Ty.size?_arrays_iff hs).mp hsize
    have hplace : leftCode = place := by
      rw [harray, hleft] at hinner
      exact Ir.Tree.expr.inj (Option.some.inj hinner)
    exact ⟨rightCode, _, hright, Shape.strides_getElem? shape dimension hlt, hplace ▸ hcode⟩

/-- Indices behind the name of an array are lowered to the code of the element. The induction is on
the indices. -/
theorem exists_elementCode (h : ofSource file source = .ok compilation)
    (hi : compilation.program.arena.Indexes array indices id)
    (hk : compilation.program.arena.kind? array = some (.expression (.name word)))
    (hb : compilation.program.bindings.get? array = some definition)
    (ht : compilation.program.types.get? definition = some (.arrays shape scalar))
    (hs : scalar.isAtomic = true) (hne : shape ≠ []) :
    ∃ outer level base codes, compilation.program.arena.Encloses outer array ∧
      compilation.program.arena.Level outer level ∧
        Bases compilation.program level definition base ∧
          KeepsAll compilation.trees indices codes ∧
            compilation.trees.get? id =
              some (.expr (Ir.elementCode (.arrays (shape.drop indices.length) scalar)
                (Ir.elementAddress base codes (Shape.strides shape)))) := by
  have htyped := (ofSource_prepared h).typed
  induction hi with
  | none =>
    obtain ⟨outer, level, base, he, hl, hbase, hcode⟩ := exists_base h hk hb ht hs hne
    exact ⟨outer, level, base, [], he, hl, hbase, .nil, hcode⟩
  | @index indices inner index id hi hk' ih =>
    obtain ⟨outer, level, base, codes, he, hl, hbase, hall, hinner⟩ := ih
    have hname : Typing.HasType compilation.program.arena compilation.program.bindings array
        (.arrays shape scalar) := .name hk hb (htyped.sound ht)
    obtain ⟨_, _, _, hinnerType, _⟩ := htyped.wellTyped.derives hk' rfl
    obtain ⟨_, rfl, _⟩ := hname.of_indexes hi hs hinnerType
    obtain ⟨code, stride, hindex, hstride, hcode⟩ :=
      exists_indexed h hk' (htyped.get?_eq_some_iff.mpr hinnerType) hs hinner
    rw [hall.length_eq] at hstride
    refine ⟨outer, level, base, codes ++ [code], he, hl, hbase,
      List.rel_append hall (.cons hindex .nil), ?_⟩
    rw [List.length_append, List.length_singleton, Ir.elementAddress_concat hstride]
    exact hcode

/-- Indices behind the name of an array are right. -/
theorem exists_elementRight (h : ofSource file source = .ok compilation)
    (hi : compilation.program.arena.Indexes array indices id) (hne : indices ≠ [])
    (hk : compilation.program.arena.kind? array = some (.expression (.name word))) :
    ∃ definition shape scalar,
      ElementRight compilation array indices id definition shape scalar := by
  have hp := ofSource_prepared h
  have ht := hp.typed
  obtain ⟨definition, item, hb, hd, hkind⟩ := hp.bound.exists_target hk rfl
  obtain ⟨type, hdefinition⟩ := ht.wellTyped.total hd rfl
  have hvalue := (hdefinition.typeRight hp.tree hp.bound hd).isValue_of_kind (by
    rintro he
    simp [he] at hkind)
  obtain ⟨shape, scalar, rfl, hs⟩ := Ty.exists_arrays hvalue
  obtain ⟨found, hid⟩ : ∃ found,
      Typing.HasType compilation.program.arena compilation.program.bindings id found := by
    cases hi with
    | none => exact absurd rfl hne
    | index _ hk' => exact ht.wellTyped.total hk' rfl
  have hname : Typing.HasType compilation.program.arena compilation.program.bindings array
      (.arrays shape scalar) := .name hk hb hdefinition
  obtain ⟨hle, rfl, hindices⟩ := hname.of_indexes hi hs hid
  have htype := ht.get?_eq_some_iff.mpr hdefinition
  have hshape : shape ≠ [] := by
    rintro rfl
    exact hne (List.eq_nil_of_length_eq_zero (Nat.le_zero.mp hle))
  refine ⟨definition, shape, scalar, hb, htype, hs, hle,
    fun index hm => ht.get?_eq_some_iff.mpr (hindices index hm), ht.get?_eq_some_iff.mpr hid,
    fun dimension hlt => ?_, ?_⟩
  · rw [Shape.strides_getElem? shape dimension hlt,
      size?_arrays h htype hs (List.drop_suffix _ shape)]
  · obtain ⟨outer, level, base, codes, he, hl, hbase, hall, hcode⟩ :=
      exists_elementCode h hi hk hb htype hs hshape
    exact ⟨outer, level, base, codes, he, hl, hbase, hall, hcode, fun address before value after =>
      Ir.computes_elementAddress_iff (hall.length_eq ▸ hle)⟩

/-- In a source that compiles, indices behind the name of an array are lowered to the address of the
array and a product of each index and the size of the elements it counts, within one access to
memory if they reach a scalar and in none if they reach an array. Every array has for its size the
product of its lengths and of a word. Indices in bounds fit the machine, and reach an element in the
array, apart from all that as many other indices reach. A type of arrays has a size exactly if the
products for it and for the arrays nested in it can be addressed. -/
theorem elements_right (h : ofSource file source = .ok compilation) :
    (∀ array word indices id,
      compilation.program.arena.kind? array = some (.expression (.name word)) →
        compilation.program.arena.Indexes array indices id → indices ≠ [] →
          ∃ definition shape scalar,
            ElementRight compilation array indices id definition shape scalar) ∧
    (∀ id shape scalar, compilation.program.types.get? id = some (.arrays shape scalar) →
      scalar.isAtomic = true → (Ty.arrays shape scalar).size? = some (Shape.bytes shape) ∧
        ∀ indices, Shape.InBounds shape indices → Shape.Fits shape indices) ∧
    ∀ shape scalar size, scalar.isAtomic = true →
      ((Ty.arrays shape scalar).size? = some size ↔ size = Shape.bytes shape ∧
        ∀ inner, inner <:+ shape → Shape.bytes inner ≤ maxObjectSize) := by
  refine ⟨fun array word indices id hk hi hne => exists_elementRight h hi hne hk,
    fun id shape scalar ht hs => ?_, fun shape scalar size hs => Ty.size?_arrays_iff hs⟩
  have hsize := size?_arrays h ht hs List.suffix_rfl
  have hbytes := ((Ty.size?_arrays_iff hs).mp hsize).2 shape List.suffix_rfl
  exact ⟨hsize, fun indices hbounds => hbounds.fits hbytes⟩

/-- An element of an array outside all functions is the index of an element of a parameter, and this
one that of an element of a variable of the function around. -/
theorem elements_right_of_nested_indices : ∃ compilation, ofSource "test"
      ("var g: arr[2] arr[3] integer; fun f(p: arr[4] integer): integer = h() " ++
        "\x7bwhere var a: arr[5] integer; fun h(): integer = a[p[g[1][2]]]\x7d") =
        .ok compilation ∧
    (∃ definition shape scalar,
      ElementRight compilation ⟨15⟩ [⟨16⟩, ⟨18⟩] ⟨19⟩ definition shape scalar) ∧
    (∃ definition shape scalar,
      ElementRight compilation ⟨14⟩ [⟨19⟩] ⟨20⟩ definition shape scalar) ∧
    (∃ definition shape scalar,
      ElementRight compilation ⟨13⟩ [⟨20⟩] ⟨21⟩ definition shape scalar) ∧
    Shape.Fits [2, 3] [1, 2] := by
  obtain ⟨compilation, h, hg, hp, ha, hrow, hcell, hargument, helement, htype⟩ :
      ∃ compilation, ofSource "test"
        ("var g: arr[2] arr[3] integer; fun f(p: arr[4] integer): integer = h() " ++
          "\x7bwhere var a: arr[5] integer; fun h(): integer = a[p[g[1][2]]]\x7d") =
          .ok compilation ∧
      compilation.program.arena.kind? ⟨15⟩ = some (.expression (.name "g")) ∧
      compilation.program.arena.kind? ⟨14⟩ = some (.expression (.name "p")) ∧
      compilation.program.arena.kind? ⟨13⟩ = some (.expression (.name "a")) ∧
      compilation.program.arena.kind? ⟨17⟩ = some (.expression (.binary .index ⟨15⟩ ⟨16⟩)) ∧
      compilation.program.arena.kind? ⟨19⟩ = some (.expression (.binary .index ⟨17⟩ ⟨18⟩)) ∧
      compilation.program.arena.kind? ⟨20⟩ = some (.expression (.binary .index ⟨14⟩ ⟨19⟩)) ∧
      compilation.program.arena.kind? ⟨21⟩ = some (.expression (.binary .index ⟨13⟩ ⟨20⟩)) ∧
      compilation.program.types.get? ⟨15⟩ = some (.array 2 (.array 3 .integer)) :=
    exists_of_any (by decide +kernel)
  obtain ⟨helements, hfit, _⟩ := elements_right h
  refine ⟨compilation, h,
    helements ⟨15⟩ "g" _ ⟨19⟩ hg (.index (.index .none hrow) hcell) (by simp),
    helements ⟨14⟩ "p" _ ⟨20⟩ hp (.index .none hargument) (by simp),
    helements ⟨13⟩ "a" _ ⟨21⟩ ha (.index .none helement) (by simp), ?_⟩
  obtain ⟨_, hfits⟩ := hfit ⟨15⟩ [2, 3] .integer htype rfl
  exact hfits [1, 2] ⟨⟨by decide, by decide⟩, ⟨by decide, by decide⟩, trivial⟩

end Compilation

end Pins
