import Pins.Proofs.Numbers
import Pins.Ty

/-!
# Written types

The written form of a type determines the type, whatever follows it (`Ty.text_append_inj`): its
first character tells what kind of type it is, the length of an array ends at its bracket, and a
list of parameters goes on at a comma and ends at a parenthesis. So a report that sets two types
against each other can be understood: where typing finds that an argument or the body of a function
has another type than it should, the two written types are different
(`Typing.written_types_differ`).
-/

namespace Pins

open Text

namespace Ty

variable {first second : Ty} {front back : List Char}

/-- The character a written type begins with. -/
def letter : Ty → Char
  | integer => 'i'
  | logical => 'l'
  | string => 's'
  | void => 'v'
  | array .. => 'a'
  | function .. => '('

/-- The written forms of types with commas between them. -/
def listed (types : List Ty) : List Char := (", ".intercalate (texts types)).toList

@[simp] theorem listed_nil : listed [] = [] := rfl

theorem listed_cons (type : Ty) (rest : List Ty) : listed (type :: rest) =
    type.text.toList ++ if rest = [] then [] else ',' :: ' ' :: listed rest := by
  cases rest with
  | nil => simp [listed, texts]
  | cons => simp [listed, texts]

/-- An array type is written with its length in brackets. -/
theorem toList_text_array (length : Nat) (element : Ty) :
    (array length element).text.toList =
      'a' :: 'r' :: 'r' :: '[' :: (length.repr.toList ++ ']' :: ' ' :: element.text.toList) := by
  simp [text]

/-- A function type is written with its parameters in parentheses. -/
theorem toList_text_function (parameters : List Ty) (result : Ty) :
    (function parameters result).text.toList =
      '(' :: (listed parameters ++ ')' :: ' ' :: '-' :: '>' :: ' ' :: result.text.toList) := by
  simp [text, listed]

/-- A written type begins with its character. -/
theorem exists_toList_text (type : Ty) : ∃ rest, type.text.toList = type.letter :: rest := by
  cases type with
  | integer | logical | string | void => exact ⟨_, rfl⟩
  | array length element => exact ⟨_, toList_text_array length element⟩
  | function parameters result => exact ⟨_, toList_text_function parameters result⟩

/-- No type begins like the end of a list. -/
theorem letter_ne (type : Ty) : type.letter ≠ ')' := by
  cases type <;> simp [letter]

/-- Written types that begin alike begin with one character. -/
theorem letter_eq (h : first.text.toList ++ front = second.text.toList ++ back) :
    first.letter = second.letter := by
  obtain ⟨rest, hfirst⟩ := first.exists_toList_text
  obtain ⟨rest', hsecond⟩ := second.exists_toList_text
  rw [hfirst, hsecond] at h
  exact (List.cons.inj h).1

/-- A type that is made of no others is determined by its character. -/
theorem eq_of_letter (h : first.letter = second.letter) (harray : first.letter ≠ 'a')
    (hfunction : first.letter ≠ '(') : first = second := by
  cases first <;> cases second <;> simp_all [letter]

mutual

/-- A written type can be told from what follows it. -/
theorem text_append_inj : (first second : Ty) → {front back : List Char} →
    first.text.toList ++ front = second.text.toList ++ back → first = second ∧ front = back
  | integer, second, _, _, h | logical, second, _, _, h | string, second, _, _, h
  | void, second, _, _, h => by
    obtain rfl := eq_of_letter (letter_eq h) (by decide) (by decide)
    exact ⟨rfl, List.append_cancel_left h⟩
  | array length element, second, front, back, h => by
    cases second with
    | array length' element' =>
      simp only [toList_text_array, List.cons_append, List.append_assoc, List.cons.injEq,
        true_and] at h
      have hmark : ∀ rest : List Char, ∀ c ∈ (']' :: rest).head?, c.isDigit = false := by simp
      obtain ⟨hlength, hrest⟩ :=
        (isRun_repr length (hmark _)).append_inj (isRun_repr length' (hmark _)) h
      simp only [List.cons.injEq, true_and] at hrest
      obtain ⟨rfl, hback⟩ := text_append_inj element element' hrest
      exact ⟨by rw [repr_inj (String.toList_injective hlength)], hback⟩
    | integer | logical | string | void | function =>
      have hletter := letter_eq h
      simp [letter] at hletter
  | function parameters result, second, front, back, h => by
    cases second with
    | function parameters' result' =>
      simp only [toList_text_function, List.cons_append, List.append_assoc, List.cons.injEq,
        true_and] at h
      obtain ⟨rfl, hrest⟩ := listed_append_inj parameters parameters' h
      simp only [List.cons.injEq, true_and] at hrest
      obtain ⟨rfl, hback⟩ := text_append_inj result result' hrest
      exact ⟨rfl, hback⟩
    | integer | logical | string | void | array =>
      have hletter := letter_eq h
      simp [letter] at hletter

/-- A list of written types can be told from a parenthesis that closes it. -/
theorem listed_append_inj : (first second : List Ty) → {front back : List Char} →
    listed first ++ ')' :: front = listed second ++ ')' :: back → first = second ∧ front = back
  | [], [], _, _, h => ⟨rfl, by simpa using h⟩
  | [], type :: rest, _, _, h => by
    obtain ⟨others, htext⟩ := type.exists_toList_text
    rw [listed_cons, htext] at h
    exact absurd (List.cons.inj h).1.symm type.letter_ne
  | type :: rest, [], _, _, h => by
    obtain ⟨others, htext⟩ := type.exists_toList_text
    rw [listed_cons, htext] at h
    exact absurd (List.cons.inj h).1 type.letter_ne
  | type :: rest, type' :: rest', front, back, h => by
    simp only [listed_cons, List.append_assoc] at h
    obtain ⟨rfl, hrest⟩ := text_append_inj type type' h
    -- behind a type stands a comma if more follow, and the parenthesis if none does
    cases rest with
    | nil =>
      cases rest' with
      | nil => exact ⟨rfl, by simpa using hrest⟩
      | cons => simp at hrest
    | cons next others =>
      cases rest' with
      | nil => simp at hrest
      | cons next' others' =>
        simp only [reduceCtorEq, if_false, List.cons_append, List.cons.injEq, true_and] at hrest
        obtain ⟨hothers, hback⟩ := listed_append_inj (next :: others) (next' :: others') hrest
        exact ⟨by rw [hothers], hback⟩

end

/-- Different types are written differently. -/
theorem text_inj (h : first.text = second.text) : first = second :=
  (text_append_inj first second (congrArg (·.toList ++ []) h)).1

end Ty

end Pins
