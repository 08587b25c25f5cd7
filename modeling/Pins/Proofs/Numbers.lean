import Pins.Proofs.Pieces

/-!
# Written numbers

A number is written with digits, a negative one behind a minus sign. Different numbers are written
differently (`repr_inj`, `intRepr_inj`), and a written number can be told from what follows it if no
digit does.
-/

namespace Pins.Text

variable {first second : Nat}

/-- Different numbers are written differently. -/
theorem repr_inj (h : first.repr = second.repr) : first = second := by
  have hdigits : Nat.toDigits 10 first = Nat.toDigits 10 second := by
    rw [← Nat.toList_repr, ← Nat.toList_repr, h]
  calc first
      = Nat.ofDigitChars 10 (Nat.toDigits 10 first) 0 := Nat.ofDigitChars_ten_toDigits.symm
    _ = Nat.ofDigitChars 10 (Nat.toDigits 10 second) 0 := by rw [hdigits]
    _ = second := Nat.ofDigitChars_ten_toDigits

/-- A number is written with digits. -/
theorem isDigit_of_mem_repr {number : Nat} {c : Char} (h : c ∈ number.repr.toList) :
    c.isDigit = true := by
  rw [Nat.toList_repr] at h
  exact Nat.isDigit_of_mem_toDigits (by omega) (by omega) h

/-- A written number ends in front of a character that is no digit. -/
theorem isRun_repr (number : Nat) {behind : List Char}
    (h : ∀ c ∈ behind.head?, c.isDigit = false) :
    IsRun Char.isDigit number.repr.toList behind :=
  ⟨fun _ hc => isDigit_of_mem_repr hc, h⟩

/-- An integer is written with digits, and maybe a minus sign. -/
theorem isDigit_of_mem_intRepr {number : Int} {c : Char} (h : c ∈ number.repr.toList) :
    c.isDigit = true ∨ c = '-' := by
  cases number with
  | ofNat value => exact .inl (isDigit_of_mem_repr h)
  | negSucc value =>
    have hsplit : (Int.negSucc value).repr.toList = '-' :: (value + 1).repr.toList := by
      rw [Int.repr, String.toList_append]
      rfl
    rw [hsplit, List.mem_cons] at h
    exact h.symm.imp_left isDigit_of_mem_repr

/-- Different integers are written differently. -/
theorem intRepr_inj {first second : Int} (h : first.repr = second.repr) : first = second := by
  -- a sign in front is no digit, so both have one or none has
  have hsign : ∀ value other : Nat, value.repr ≠ "-" ++ other.repr := by
    intro value other he
    have hmem : '-' ∈ value.repr.toList := by rw [he, String.toList_append]; simp
    exact absurd (isDigit_of_mem_repr hmem) (by decide)
  cases first with
  | ofNat value =>
    cases second with
    | ofNat other => exact congrArg Int.ofNat (repr_inj h)
    | negSucc other => exact absurd h (hsign value (other + 1))
  | negSucc value =>
    cases second with
    | ofNat other => exact absurd h.symm (hsign other (value + 1))
    | negSucc other =>
      have hvalue := repr_inj ((String.append_right_inj "-").mp h)
      exact congrArg Int.negSucc (Nat.succ.inj hvalue)

end Pins.Text
