import Mathlib.Data.Set.Basic
import Pins.Proofs.Values

/-!
# The shape of an array

An array of arrays has a shape: its lengths from the outside in. An index moves by as many bytes as
the elements take that it counts, the stride of its dimension, and so some indices together move by
the sum of their steps (`displacement`). As long as every index is below its length, the element
they reach lies in the array (`span_subset`), and as many other indices reach an element apart from
it (`not_mem_span`).

The size of an array type is the product of its lengths and of a word, unless that of the array or
of one nested in it cannot be addressed. This is so also for arrays without elements
(`Ty.size?_arrays_iff`).
-/

namespace Pins

namespace Shape

variable {shape inner : List Nat} {indices others : List Int}

/-- The bytes of an array of a shape: the product of the lengths and of a word. -/
def bytes (shape : List Nat) : Nat := shape.foldr (· * ·) wordSize

/-- The bytes of the elements that each index counts, from the outside in. -/
def strides : List Nat → List Nat
  | [] => []
  | _ :: inner => bytes inner :: strides inner

/-- The bytes that each of some indices moves by. -/
def steps (shape : List Nat) (indices : List Int) : List Int :=
  List.zipWith (fun index stride => index * (stride : Int)) indices (strides shape)

/-- The bytes that some indices move by together. -/
def displacement (shape : List Nat) (indices : List Int) : Int :=
  (steps shape indices).foldr (· + ·) 0

/-- There are no more indices than lengths, and each one is the number of an element. -/
def InBounds : List Nat → List Int → Prop
  | _, [] => True
  | length :: inner, index :: indices => (0 ≤ index ∧ index < length) ∧ InBounds inner indices
  | [], _ :: _ => False

/-- The bytes of the element that some indices reach in an array that is kept from a base on. -/
def span (base : Int) (shape : List Nat) (indices : List Int) : Set Int :=
  {byte | base + displacement shape indices ≤ byte ∧
    byte < base + displacement shape indices + bytes (shape.drop indices.length)}

@[simp] theorem bytes_cons (length : Nat) (inner : List Nat) :
    bytes (length :: inner) = length * bytes inner := rfl

@[simp] theorem steps_nil : steps shape [] = [] := rfl

@[simp] theorem steps_cons (length : Nat) (inner : List Nat) (index : Int) (indices : List Int) :
    steps (length :: inner) (index :: indices) =
      index * bytes inner :: steps inner indices := rfl

@[simp] theorem displacement_nil : displacement shape [] = 0 := rfl

@[simp] theorem displacement_cons (length : Nat) (inner : List Nat) (index : Int)
    (indices : List Int) : displacement (length :: inner) (index :: indices) =
      index * bytes inner + displacement inner indices := rfl

/-- A stride is the number of bytes of what is left of the shape behind its dimension. -/
theorem strides_getElem? (shape : List Nat) (dimension : Nat) (h : dimension < shape.length) :
    (strides shape)[dimension]? = some (bytes (shape.drop (dimension + 1))) := by
  induction shape generalizing dimension with
  | nil => simp at h
  | cons length inner ih =>
    cases dimension with
    | zero => rfl
    | succ dimension => exact ih dimension (Nat.lt_of_succ_lt_succ h)

/-- Indices in bounds move forward only. -/
theorem steps_nonneg (h : InBounds shape indices) : ∀ step ∈ steps shape indices, 0 ≤ step := by
  induction shape generalizing indices with
  | nil =>
    cases indices with
    | nil => simp
    | cons => exact h.elim
  | cons length inner ih =>
    cases indices with
    | nil => simp
    | cons index indices =>
      obtain ⟨⟨hindex, _⟩, hrest⟩ := h
      rw [steps_cons, List.forall_mem_cons]
      exact ⟨Int.mul_nonneg hindex (Int.natCast_nonneg _), ih hrest⟩

/-- Each of some indices in bounds moves no further than all of them, and these move forward. -/
theorem displacement_bounds (h : InBounds shape indices) : 0 ≤ displacement shape indices ∧
    ∀ step ∈ steps shape indices, step ≤ displacement shape indices := by
  have hforward := steps_nonneg h
  unfold displacement
  generalize steps shape indices = moved at hforward ⊢
  induction moved with
  | nil => simp
  | cons first others ih =>
    rw [List.forall_mem_cons] at hforward
    obtain ⟨hnonneg, hall⟩ := ih hforward.2
    rw [List.foldr_cons, List.forall_mem_cons]
    refine ⟨by omega, by omega, fun step hm => ?_⟩
    have hle := hall step hm
    omega

/-- The rows up to a number end where those of a larger one end, or in front of it. -/
theorem row_le {index length : Int} (size : Nat) (h : index + 1 ≤ length) :
    index * size + size ≤ length * size := by
  have hrow := Int.mul_le_mul_of_nonneg_right h (Int.natCast_nonneg size)
  rwa [Int.add_mul, Int.one_mul] at hrow

/-- An element ends no further than the array. -/
theorem displacement_add_le (h : InBounds shape indices) :
    displacement shape indices + bytes (shape.drop indices.length) ≤ bytes shape := by
  induction shape generalizing indices with
  | nil =>
    cases indices with
    | nil => simp
    | cons => exact h.elim
  | cons length inner ih =>
    cases indices with
    | nil => simp
    | cons index indices =>
      obtain ⟨⟨_, hindex⟩, hrest⟩ := h
      have hinner := ih hrest
      have hrow := row_le (bytes inner) (Int.add_one_le_iff.mpr hindex)
      rw [displacement_cons, List.length_cons, List.drop_succ_cons, bytes_cons, Int.natCast_mul]
      omega

/-- Of two elements of one depth, one ends before the other begins. -/
theorem displacement_apart (h : InBounds shape indices) (h' : InBounds shape others)
    (hlength : indices.length = others.length) (hne : indices ≠ others) :
    displacement shape indices + bytes (shape.drop indices.length) ≤ displacement shape others ∨
      displacement shape others + bytes (shape.drop others.length) ≤
        displacement shape indices := by
  induction shape generalizing indices others with
  | nil =>
    cases indices with
    | nil => cases others with
      | nil => exact absurd rfl hne
      | cons => cases hlength
    | cons => exact h.elim
  | cons length inner ih =>
    cases indices with
    | nil => cases others with
      | nil => exact absurd rfl hne
      | cons => cases hlength
    | cons index indices =>
      cases others with
      | nil => cases hlength
      | cons other others =>
        obtain ⟨_, hrest⟩ := h
        obtain ⟨_, hrest'⟩ := h'
        simp only [displacement_cons, List.length_cons, List.drop_succ_cons]
        rcases lt_trichotomy index other with hlt | rfl | hgt
        · have hrow := row_le (bytes inner) (Int.add_one_le_iff.mpr hlt)
          have hends := displacement_add_le hrest
          have hbegins := (displacement_bounds hrest').1
          omega
        · have hinner := ih hrest hrest' (Nat.succ.inj hlength) fun he => hne (he ▸ rfl)
          omega
        · have hrow := row_le (bytes inner) (Int.add_one_le_iff.mpr hgt)
          have hends := displacement_add_le hrest'
          have hbegins := (displacement_bounds hrest).1
          omega

/-- An element lies in the array. -/
theorem span_subset (base : Int) (h : InBounds shape indices) :
    span base shape indices ⊆ {byte | base ≤ byte ∧ byte < base + bytes shape} := by
  have hbegins := (displacement_bounds h).1
  have hends := displacement_add_le h
  rintro byte ⟨hfirst, hlast⟩
  exact ⟨by omega, by omega⟩

/-- Two elements of one depth have no byte in common. -/
theorem not_mem_span (base : Int) (h : InBounds shape indices) (h' : InBounds shape others)
    (hlength : indices.length = others.length) (hne : indices ≠ others) :
    ∀ byte ∈ span base shape indices, byte ∉ span base shape others := by
  rintro byte ⟨hfirst, hlast⟩ ⟨hfirst', hlast'⟩
  have hapart := displacement_apart h h' hlength hne
  omega

/-- A displacement does not wrap around as long as it ends at an address. -/
theorem toInt_add_ofInt {place : Int32} {distance : Int} (hn : 0 ≤ distance)
    (hd : place.toInt + distance ≤ maxObjectSize) (hl : distance ≤ maxObjectSize) :
    (place + Int32.ofInt distance).toInt = place.toInt + distance := by
  have hlowest := place.le_toInt
  have hlargest : (maxObjectSize : Int) = 2147483647 := rfl
  rw [Int32.toInt_add, Int32.toInt_ofInt_of_le (by omega) (by omega),
    Int.bmod_eq_of_le (by omega) (by omega)]

/-- What holds of indices in the words of the machine, and of the element they reach. -/
structure Fits (shape : List Nat) (indices : List Int) : Prop where
  /-- The product of each index and its stride fits a signed word. -/
  step : ∀ step ∈ steps shape indices, 0 ≤ step ∧ step ≤ maxObjectSize
  /-- So does the sum of the products. -/
  sum : 0 ≤ displacement shape indices ∧ displacement shape indices ≤ maxObjectSize
  /-- The sum does not wrap around if it is added to the address of an array that can be
  addressed. -/
  exact : ∀ place : Int32, place.toInt + bytes shape ≤ maxObjectSize →
    (place + Int32.ofInt (displacement shape indices)).toInt =
      place.toInt + displacement shape indices
  /-- The element lies in the array. -/
  inside : ∀ base, span base shape indices ⊆ {byte | base ≤ byte ∧ byte < base + bytes shape}
  /-- As many other indices reach an element without a byte in common. -/
  apart : ∀ base others, InBounds shape others → indices.length = others.length →
    indices ≠ others → ∀ byte ∈ span base shape indices, byte ∉ span base shape others

/-- Indices in bounds of an array that can be addressed fit the machine. -/
theorem InBounds.fits (h : InBounds shape indices) (hb : bytes shape ≤ maxObjectSize) :
    Fits shape indices := by
  obtain ⟨hbegins, hall⟩ := displacement_bounds h
  have hends := displacement_add_le h
  exact {
    step := fun step hm => ⟨steps_nonneg h step hm, by
      have hle := hall step hm
      omega⟩
    sum := ⟨hbegins, by omega⟩
    exact := fun place hplace => toInt_add_ofInt hbegins (by omega) (by omega)
    inside := fun base => span_subset base h
    apart := fun base others h' => not_mem_span base h h' }

end Shape

namespace Ty

variable {shape : List Nat} {scalar type : Ty}

/-- The type of arrays of a shape with scalar elements. -/
def arrays (shape : List Nat) (scalar : Ty) : Ty := shape.foldr array scalar

@[simp] theorem arrays_nil (scalar : Ty) : arrays [] scalar = scalar := rfl

@[simp] theorem arrays_cons (length : Nat) (inner : List Nat) (scalar : Ty) :
    arrays (length :: inner) scalar = array length (arrays inner scalar) := rfl

/-- The type of a value is that of arrays of some shape, which may be no arrays at all. -/
theorem exists_arrays (h : type.isValue = true) :
    ∃ shape scalar, type = arrays shape scalar ∧ scalar.isAtomic = true := by
  induction type using isValue.induct with
  | case1 | case2 | case3 => exact ⟨[], _, rfl, rfl⟩
  | case4 length element ih =>
    obtain ⟨shape, scalar, rfl, hs⟩ := ih h
    exact ⟨length :: shape, scalar, rfl, hs⟩
  | case5 | case6 => cases h

/-- Arrays of a shape with lengths are arrays. -/
theorem isArray_arrays (hs : scalar.isAtomic = true) :
    (arrays shape scalar).isArray = !shape.isEmpty := by
  cases shape with
  | nil => cases scalar <;> first | rfl | cases hs
  | cons => rfl

/-- What is left of a shape has a length if it is that of arrays; their elements are then arrays of
what is left behind it. -/
theorem arrays_drop_eq_array (hs : scalar.isAtomic = true) {dimension length : Nat} {element : Ty}
    (h : arrays (shape.drop dimension) scalar = array length element) :
    dimension < shape.length ∧ element = arrays (shape.drop (dimension + 1)) scalar := by
  cases hleft : shape.drop dimension with
  | nil =>
    rw [hleft, arrays_nil] at h
    subst h
    cases hs
  | cons first inner =>
    rw [hleft, arrays_cons, array.injEq] at h
    have hbehind : shape.drop (dimension + 1) = inner := by
      rw [← List.drop_drop, hleft, List.drop_one, List.tail_cons]
    refine ⟨?_, by rw [hbehind, h.2]⟩
    rw [← Nat.not_le, ← List.drop_eq_nil_iff, hleft]
    exact List.cons_ne_nil _ _

/-- The size of an array type is the exact product of its lengths and of a word. There is one if and
only if neither that of the array nor that of an array nested in it is too large. -/
theorem size?_arrays_iff (hs : scalar.isAtomic = true) {size : Nat} :
    (arrays shape scalar).size? = some size ↔
      size = Shape.bytes shape ∧ ∀ inner, inner <:+ shape → Shape.bytes inner ≤ maxObjectSize := by
  induction shape generalizing size with
  | nil =>
    have hscalar : scalar.size? = some wordSize := by
      cases scalar <;> first | rfl | cases hs
    have hword : Shape.bytes [] ≤ maxObjectSize := by decide
    simp only [arrays_nil, hscalar, List.suffix_nil, forall_eq, hword, and_true, Option.some.injEq]
    exact eq_comm
  | cons length inner ih =>
    have hall : (∀ other, other <:+ length :: inner → Shape.bytes other ≤ maxObjectSize) ↔
        length * Shape.bytes inner ≤ maxObjectSize ∧
          ∀ other, other <:+ inner → Shape.bytes other ≤ maxObjectSize := by
      simp only [List.suffix_cons_iff, or_imp, forall_and, forall_eq, Shape.bytes_cons]
    rw [hall, arrays_cons, size?, Shape.bytes_cons]
    constructor
    · intro h
      obtain ⟨found, hf, hsize⟩ := Option.bind_eq_some_iff.mp h
      obtain ⟨rfl, hinner⟩ := ih.mp hf
      dsimp only at hsize
      split at hsize
      · next hle => exact ⟨(Option.some.inj hsize).symm, hle, hinner⟩
      · cases hsize
    · rintro ⟨rfl, hle, hinner⟩
      rw [ih.mpr ⟨rfl, hinner⟩]
      simp [hle]

end Ty

end Pins
