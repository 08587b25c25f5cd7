import Mathlib.Data.Set.Monotone
import Pins.Proofs.LineTable
import Pins.Proofs.PlaceOrder

/-!
# Offsets and places

The byte offsets between the characters of a source and the places that a cursor looks up for them
stand for each other (`Cursor.places_correspond`). A later offset has a later place, so no two have
the same one, and a place counts the line feeds in front and the characters behind the last of
them. The line that a place names is found by splitting the source anew; at the column of the place
it has the character at the offset, unless this is one of those that end the line and were cut off.
-/

namespace Pins.Text

variable {source : List Char}

/-- A character in front of a text ends its line: it is the line feed, or a carriage return with
only carriage returns between it and the end of the line. -/
def EndsLine (c : Char) (rest : List Char) : Prop :=
  c = '\n' ∨ c = '\r' ∧ ∀ d ∈ Literal.line rest, d = '\r'

/-- Of two boundaries, the earlier one has fewer characters in front of it. -/
theorem IsBoundary.exists_between {first second : Nat} (hf : IsBoundary source first)
    (hs : IsBoundary source second) (hlt : first < second) :
    ∃ front text back, source = front ++ text ++ back ∧ text ≠ [] ∧ first = byteLength front ∧
      second = byteLength (front ++ text) := by
  obtain ⟨front, back, hsource, rfl⟩ := hf
  obtain ⟨whole, behind, hsource', rfl⟩ := hs
  have hfront : front <+: source := ⟨back, hsource.symm⟩
  have hwhole : whole <+: source := ⟨behind, hsource'.symm⟩
  rcases List.prefix_or_prefix_of_prefix hfront hwhole with ⟨text, rfl⟩ | ⟨text, rfl⟩
  · refine ⟨front, text, behind, hsource', ?_, rfl, rfl⟩
    rintro rfl
    rw [List.append_nil] at hlt
    exact Nat.lt_irrefl _ hlt
  · have hlength := byteLength_append whole text
    omega

/-- Later boundaries have later places. -/
theorem strictMonoOn_locate (file : String) (source : List Char) :
    StrictMonoOn (locate file source) {bytes | IsBoundary source bytes} := by
  intro first hf second hs hlt
  obtain ⟨front, text, back, rfl, hne, rfl, rfl⟩ := hf.exists_between hs hlt
  have hsecond := locate_byteLength file (front ++ text) back
  have hfirst := locate_byteLength file front (text ++ back)
  rw [← List.append_assoc] at hfirst
  rw [hfirst, hsecond, Position.past_append]
  exact Position.lt_past hne

/-- Trimming a text does not make it longer. -/
theorem length_trimEnd_le (drop : Char → Bool) (text : List Char) :
    (trimEnd drop text).length ≤ text.length := by
  obtain ⟨gap, hsplit, _⟩ := exists_trimEnd_append drop text
  have hlength := congrArg List.length hsplit
  rw [List.length_append] at hlength
  omega

/-- A character of a trimmed text is kept unless it and all behind it may be dropped. -/
theorem getElem?_trimEnd_append (drop : Char → Bool) (front : List Char) (c : Char)
    (rest : List Char) : (trimEnd drop (front ++ c :: rest))[front.length]? = some c ↔
      ∃ d ∈ c :: rest, drop d = false := by
  obtain ⟨gap, hsplit, hgap⟩ := exists_trimEnd_append drop (front ++ c :: rest)
  constructor
  · intro hget
    by_contra hall
    have hdrop : ∀ d ∈ (c :: rest).reverse, drop d = true := by
      intro d hd
      by_contra hkept
      exact hall ⟨d, List.mem_reverse.mp hd, Bool.eq_false_of_not_eq_true hkept⟩
    -- then the text is trimmed within its front
    have htrim : trimEnd drop (front ++ c :: rest) = trimEnd drop front := by
      rw [trimEnd, List.reverse_append, List.dropWhile_append_of_pos hdrop, trimEnd]
    rw [htrim, List.getElem?_eq_none (length_trimEnd_le drop front)] at hget
    cases hget
  · rintro ⟨d, hd, hkept⟩
    have hlt : front.length < (trimEnd drop (front ++ c :: rest)).length := by
      -- else the character and all behind it would be dropped
      by_contra hle
      have hlength := congrArg List.length hsplit
      rw [List.length_append, List.length_append] at hlength
      have htrailing : c :: rest <:+ gap :=
        List.suffix_of_suffix_length_le ⟨front, rfl⟩ ⟨_, hsplit.symm⟩ (by omega)
      have hdropped := hgap d (htrailing.subset hd)
      exact Bool.false_ne_true (hkept.symm.trans hdropped)
    calc (trimEnd drop (front ++ c :: rest))[front.length]?
        = (trimEnd drop (front ++ c :: rest) ++ gap)[front.length]? :=
          (List.getElem?_append_left hlt).symm
      _ = (front ++ c :: rest)[front.length]? := by rw [← hsplit]
      _ = some c := by
        rw [List.getElem?_append_right (Nat.le_refl _), Nat.sub_self, List.getElem?_cons_zero]

/-- The line of a character has it at its column, unless it ends the line. -/
theorem getElem?_line_iff (front : List Char) (c : Char) (rest : List Char) :
    (trimEnd (· == '\r') (lastLine front ++ Literal.line (c :: rest)))[(lastLine front).length]? =
      some c ↔ ¬ EndsLine c rest := by
  by_cases hfeed : c = '\n'
  · subst hfeed
    have hline : Literal.line ('\n' :: rest) = [] := rfl
    rw [hline, List.append_nil, List.getElem?_eq_none (length_trimEnd_le _ _)]
    simp [EndsLine]
  · rw [Literal.line_cons hfeed, getElem?_trimEnd_append]
    simp only [EndsLine, hfeed, false_or, List.mem_cons, exists_eq_or_imp, beq_eq_false_iff_ne,
      not_and_or, not_forall, exists_prop, ne_eq]

namespace Cursor

/-- Byte offsets and places stand for each other: later offsets have later places; a place counts
the line feeds in front and the characters behind the last of them; and the line of a place exists
and has the character at the offset in the column of the place, unless it ends the line. -/
theorem places_correspond (cursor : Cursor) :
    StrictMonoOn cursor.placeOf {bytes | IsBoundary cursor.source bytes} ∧
    ∀ front back, cursor.source = front ++ back →
      (cursor.placeOf (byteLength front)).line = 1 + front.count '\n' ∧
      (cursor.placeOf (byteLength front)).column = 1 + (lastLine front).length ∧
      ∀ c rest, back = c :: rest →
        ∃ text, line? cursor.source (cursor.placeOf (byteLength front)).line = some text ∧
          (text[(cursor.placeOf (byteLength front)).column - 1]? = some c ↔
            ¬ EndsLine c rest) := by
  have hmono := strictMonoOn_locate cursor.file cursor.source
  have hlocate : Set.EqOn (locate cursor.file cursor.source) cursor.placeOf
      {bytes | IsBoundary cursor.source bytes} := fun _ h => (placeOf_eq_locate h).symm
  refine ⟨StrictMonoOn.congr hmono hlocate, fun front back hsource => ?_⟩
  have hplace : cursor.placeOf (byteLength front) =
      (Position.origin cursor.file).past front := by
    rw [placeOf_eq_locate ⟨front, back, hsource, rfl⟩, hsource, locate_byteLength]
  have hline := Position.line_past_origin cursor.file front
  have hcolumn := Position.column_past_origin cursor.file front
  rw [hplace]
  refine ⟨by omega, by omega, ?_⟩
  rintro c rest rfl
  refine ⟨_, hsource ▸ line?_past cursor.file front (c :: rest), ?_⟩
  rw [hcolumn, Nat.add_sub_cancel]
  exact getElem?_line_iff front c rest

/-- A carriage return inside a line, behind a character of two bytes, stands at its column; the one
in front of the line feed was cut off. -/
theorem places_correspond_of_returns :
    ∃ cursor : Cursor, cursor.source = ['\n', 'é', '\r', 'a', '\r', '\n', 'b'] ∧
      cursor.placeOf 3 = ⟨2, 2, "note"⟩ ∧ cursor.placeOf 5 = ⟨2, 4, "note"⟩ ∧
      cursor.placeOf 3 < cursor.placeOf 5 ∧
      ∃ text, line? cursor.source 2 = some text ∧ text[1]? = some '\r' ∧
        text[3]? ≠ some '\r' := by
  let cursor : Cursor :=
    { file := "note", source := ['\n', 'é', '\r', 'a', '\r', '\n', 'b'], offset := 0 }
  have hinside : byteLength ['\n', 'é'] = 3 := by decide
  have hend : byteLength ['\n', 'é', '\r', 'a'] = 5 := by decide
  have hthird : cursor.placeOf 3 = ⟨2, 2, "note"⟩ := by decide +kernel
  have hfifth : cursor.placeOf 5 = ⟨2, 4, "note"⟩ := by decide +kernel
  obtain ⟨hmono, hplaces⟩ := cursor.places_correspond
  have hearlier : IsBoundary cursor.source 3 := ⟨_, ['\r', 'a', '\r', '\n', 'b'], rfl, hinside.symm⟩
  have hlate : IsBoundary cursor.source 5 := ⟨_, ['\r', '\n', 'b'], rfl, hend.symm⟩
  have hlater : cursor.placeOf 3 < cursor.placeOf 5 := hmono hearlier hlate (by omega)
  obtain ⟨text, htext, hkept⟩ :=
    (hplaces ['\n', 'é'] ['\r', 'a', '\r', '\n', 'b'] rfl).2.2 _ _ rfl
  obtain ⟨text', htext', hcut⟩ :=
    (hplaces ['\n', 'é', '\r', 'a'] ['\r', '\n', 'b'] rfl).2.2 _ _ rfl
  rw [hinside, hthird] at htext hkept
  rw [hend, hfifth] at htext' hcut
  obtain rfl := Option.some.inj (htext.symm.trans htext')
  refine ⟨cursor, rfl, hthird, hfifth, hlater, text, htext, ?_, ?_⟩
  · exact hkept.mpr (by simp [EndsLine, Literal.line])
  · intro hget
    exact hcut.mp hget (by simp [EndsLine, Literal.line])

end Cursor

end Pins.Text
