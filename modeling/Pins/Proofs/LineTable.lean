import Mathlib.Data.List.Count
import Pins.Proofs.Caret
import Pins.Text.Cursor

/-!
# Looking up lines

The table of line starts is sorted and holds one offset for each line, so a search in it finds the
line of an offset: there are as many line starts up to a boundary, besides the first one, as there
are line feeds in front of it (`lineIndex_lineStarts`), and the last of them is the start of the
line (`getElem?_lineStarts`). A cursor therefore looks up the same places that are reached by
walking over the source (`Cursor.placeOf_eq_locate`).
-/

namespace Pins.Text

/-! ## The search -/

section

variable {table : Array Nat} {wanted low high : Nat}

/-- What a search may answer: an index at which the number stands, or one with smaller numbers in
front and larger ones from it on. -/
inductive Answers (table : Array Nat) (wanted : Nat) : Except Nat Nat → Prop where
  | hit {index : Nat} (h : index < table.size) (hfound : table[index] = wanted) :
      Answers table wanted (.ok index)
  | miss {next : Nat} (hle : next ≤ table.size)
      (hbelow : ∀ index, ∀ h : index < table.size, index < next → table[index] < wanted)
      (habove : ∀ index, ∀ h : index < table.size, next ≤ index → wanted < table[index]) :
      Answers table wanted (.error next)

/-- Later numbers of a sorted table are larger. -/
theorem getElem_lt_getElem (hs : table.toList.Pairwise (· < ·)) {first second : Nat}
    (hlt : first < second) (h : second < table.size) : table[first] < table[second] :=
  List.pairwise_iff_getElem.mp hs first second (hlt.trans h) h hlt

/-- A search in a window of a sorted table answers, if all numbers in front of the window are
smaller and all behind it are larger. -/
theorem answers_searchWithin (hs : table.toList.Pairwise (· < ·)) (hle : low ≤ high)
    (hhigh : high ≤ table.size)
    (hbelow : ∀ index, ∀ h : index < table.size, index < low → table[index] < wanted)
    (habove : ∀ index, ∀ h : index < table.size, high ≤ index → wanted < table[index]) :
    Answers table wanted (searchWithin table wanted low high hhigh) := by
  fun_induction searchWithin table wanted low high hhigh with
  | case1 low high hhigh hlow middle hcompare ih =>
    have hmiddle : table[middle] < wanted := Nat.compare_eq_lt.mp hcompare
    refine ih (by omega) (fun index h hi => ?_) habove
    rcases Nat.lt_or_eq_of_le (Nat.le_of_lt_succ hi) with hi | rfl
    · exact (getElem_lt_getElem hs hi (by omega)).trans hmiddle
    · exact hmiddle
  | case2 low high hhigh hlow middle hcompare =>
    exact .hit (by omega) (Nat.compare_eq_eq.mp hcompare)
  | case3 low high hhigh hlow middle hcompare ih =>
    have hmiddle : wanted < table[middle] := Nat.compare_eq_gt.mp hcompare
    refine ih (by omega) hbelow fun index h hi => ?_
    rcases Nat.lt_or_eq_of_le hi with hi | rfl
    · exact hmiddle.trans (getElem_lt_getElem hs hi h)
    · exact hmiddle
  | case4 low high hhigh hlow =>
    obtain rfl : low = high := by omega
    exact .miss hhigh hbelow habove

/-- A search in a sorted table answers. -/
theorem answers_search (hs : table.toList.Pairwise (· < ·)) (wanted : Nat) :
    Answers table wanted (search table wanted) :=
  answers_searchWithin hs (Nat.zero_le _) _ (fun _ _ hi => absurd hi (Nat.not_lt_zero _))
    fun _ h hi => absurd h (Nat.not_lt_of_le hi)

end

/-! ## The table -/

section

variable {text front back : List Char} {bytes : Nat}

/-- The line starts of a text are those of its beginning and those of the rest. -/
theorem startsFrom_append (bytes : Nat) (front back : List Char) :
    startsFrom bytes (front ++ back) =
      startsFrom bytes front ++ startsFrom (bytes + byteLength front) back := by
  induction front generalizing bytes with
  | nil => rfl
  | cons c rest ih =>
    simp only [List.cons_append, startsFrom, byteLength, ih, ← Nat.add_assoc]
    split <;> rfl

/-- A line starts behind each line feed. -/
theorem length_startsFrom (bytes : Nat) (text : List Char) :
    (startsFrom bytes text).length = text.count '\n' := by
  induction text generalizing bytes with
  | nil => rfl
  | cons c rest ih =>
    by_cases hc : c = '\n'
    · simp [startsFrom, hc, ih]
    · simp [startsFrom, hc, ih]

/-- The later lines start behind the first character of a text, and at its end at the latest. -/
theorem bounds_of_mem_startsFrom {start : Nat} (hm : start ∈ startsFrom bytes text) :
    bytes < start ∧ start ≤ bytes + byteLength text := by
  induction text generalizing bytes with
  | nil => cases hm
  | cons c rest ih =>
    have hpos := c.utf8Size_pos
    have hlater : start ∈ startsFrom (bytes + c.utf8Size) rest →
        bytes < start ∧ start ≤ bytes + byteLength (c :: rest) := by
      intro hm
      have hbounds := ih hm
      simp only [byteLength]
      omega
    rw [startsFrom] at hm
    split at hm
    · rcases List.mem_cons.mp hm with rfl | hm
      · simp only [byteLength]
        omega
      · exact hlater hm
    · exact hlater hm

/-- The line starts of a text come in their order. -/
theorem pairwise_startsFrom (bytes : Nat) (text : List Char) :
    (startsFrom bytes text).Pairwise (· < ·) := by
  induction text generalizing bytes with
  | nil => exact .nil
  | cons c rest ih =>
    rw [startsFrom]
    split
    · next hc =>
      subst hc
      exact List.pairwise_cons.mpr ⟨fun start hm => (bounds_of_mem_startsFrom hm).1, ih _⟩
    · exact ih _

/-- The table of line starts is sorted. -/
theorem pairwise_lineStarts (source : List Char) :
    (lineStarts source).toList.Pairwise (· < ·) :=
  List.pairwise_cons.mpr ⟨fun _ hm => (bounds_of_mem_startsFrom hm).1, pairwise_startsFrom 0 source⟩

/-- Around a boundary, the table has the line starts of the front and those of the rest. -/
theorem toList_lineStarts (front back : List Char) : (lineStarts (front ++ back)).toList =
    (0 :: startsFrom 0 front) ++ startsFrom (byteLength front) back := by
  simp [lineStarts, startsFrom_append]

/-- There is a first line, and one more for each line feed. -/
theorem size_lineStarts (source : List Char) :
    (lineStarts source).size = source.count '\n' + 1 := by
  simp [lineStarts, length_startsFrom]

/-- The lines that start up to a boundary are the first one and as many more as there are line feeds
in front. -/
theorem getElem_lineStarts_le_iff {index : Nat} (h : index < (lineStarts (front ++ back)).size) :
    (lineStarts (front ++ back))[index] ≤ byteLength front ↔ index ≤ front.count '\n' := by
  have hlength : (0 :: startsFrom 0 front).length = front.count '\n' + 1 := by
    rw [List.length_cons, length_startsFrom]
  simp only [← Array.getElem_toList, toList_lineStarts]
  rcases Nat.lt_or_ge index (0 :: startsFrom 0 front).length with hi | hi
  · rw [List.getElem_append_left hi]
    refine iff_of_true ?_ (by omega)
    rcases List.mem_cons.mp (List.getElem_mem hi) with hzero | hm
    · exact hzero.trans_le (Nat.zero_le _)
    · exact (bounds_of_mem_startsFrom hm).2.trans_eq (Nat.zero_add _)
  · rw [List.getElem_append_right hi]
    refine iff_of_false (Nat.not_le_of_lt ?_) (by omega)
    exact (bounds_of_mem_startsFrom (List.getElem_mem _)).1

/-- The line of a boundary has as many lines in front of it as there are line feeds. -/
theorem lineIndex_lineStarts (front back : List Char) :
    lineIndex (lineStarts (front ++ back)) (byteLength front) = front.count '\n' := by
  have hs := pairwise_lineStarts (front ++ back)
  have hcount : front.count '\n' < (lineStarts (front ++ back)).size := by
    rw [size_lineStarts, List.count_append]
    omega
  have hlast := (getElem_lineStarts_le_iff hcount).mpr le_rfl
  have hanswers := answers_search hs (byteLength front)
  unfold lineIndex
  generalize search (lineStarts (front ++ back)) (byteLength front) = answer at hanswers ⊢
  cases hanswers with
  | @hit index h hfound =>
    change index = front.count '\n'
    refine le_antisymm ((getElem_lineStarts_le_iff h).mp hfound.le) (le_of_not_gt fun hlt => ?_)
    have hearlier := getElem_lt_getElem hs hlt hcount
    omega
  | @miss next hle hbelow habove =>
    have hbehind : front.count '\n' < next :=
      lt_of_not_ge fun hge => absurd hlast (Nat.not_le_of_lt (habove _ hcount hge))
    have hinside : next ≤ front.count '\n' + 1 := by
      refine le_of_not_gt fun hlt => ?_
      have hlater := hbelow (front.count '\n' + 1) (hlt.trans_le hle) hlt
      exact absurd ((getElem_lineStarts_le_iff _).mp hlater.le) (Nat.not_succ_le_self _)
    change next - 1 = front.count '\n'
    omega

/-- The last line start of a text stands in front of its last line. -/
theorem getElem?_startsFrom (front : List Char) : (0 :: startsFrom 0 front)[front.count '\n']? =
    some (byteLength (front.rdropWhile (· ≠ '\n'))) := by
  induction front using List.reverseRecOn with
  | nil => rfl
  | append_singleton front c ih =>
    by_cases hc : c = '\n'
    · subst hc
      have hsize : '\n'.utf8Size = 1 := by decide
      rw [List.rdropWhile_concat_neg _ _ _ (by simp), startsFrom_append, byteLength_append,
        List.count_append, List.count_singleton_self, List.getElem?_cons_succ,
        List.getElem?_append_right (length_startsFrom 0 front).le, length_startsFrom]
      simp [startsFrom, byteLength, hsize]
    · rw [List.rdropWhile_concat_pos _ _ _ (by simpa using hc), startsFrom_append]
      simpa [startsFrom, hc] using ih

/-- The line of a boundary starts in front of what stands on it up to the boundary. -/
theorem getElem?_lineStarts (front back : List Char) :
    (lineStarts (front ++ back))[front.count '\n']? =
      some (byteLength (front.rdropWhile (· ≠ '\n'))) := by
  rw [← Array.getElem?_toList, toList_lineStarts, List.getElem?_append_left, getElem?_startsFrom]
  rw [List.length_cons, length_startsFrom]
  exact Nat.lt_succ_self _

/-- The text behind the bytes of a beginning is the rest. -/
theorem behind_byteLength (front back : List Char) :
    behind (byteLength front) (front ++ back) = back := by
  induction front with
  | nil =>
    cases back with
    | nil => rfl
    | cons c rest =>
      have hpos := c.utf8Size_pos
      simp only [List.nil_append, byteLength, behind]
      rw [if_neg (by omega)]
  | cons c rest ih => simp [behind, byteLength, ih]

/-- Between the ends of a stretch of a text stands the stretch. -/
theorem slice_byteLength (front text back : List Char) :
    slice (byteLength front) (byteLength (front ++ text)) (front ++ text ++ back) = text := by
  rw [slice, List.append_assoc, behind_byteLength, byteLength_append, Nat.add_sub_cancel_left,
    leading_byteLength]

end

/-! ## The places of a cursor -/

namespace Cursor

variable {cursor : Cursor} {bytes : Nat}

/-- The place that a cursor looks up for a boundary is the one that is reached by walking there. -/
theorem placeOf_eq_locate (h : IsBoundary cursor.source bytes) :
    cursor.placeOf bytes = locate cursor.file cursor.source bytes := by
  obtain ⟨front, back, hsource, rfl⟩ := h
  have hsplit : front = front.rdropWhile (· ≠ '\n') ++ lastLine front :=
    (List.rdropWhile_append_rtakeWhile ..).symm
  have hslice := slice_byteLength (front.rdropWhile (· ≠ '\n')) (lastLine front) back
  rw [← hsplit] at hslice
  have hline : lineIndex cursor.starts (byteLength front) = front.count '\n' := by
    rw [cursor.starts_eq, hsource, lineIndex_lineStarts]
  have hstart : cursor.starts.getD (front.count '\n') 0 =
      byteLength (front.rdropWhile (· ≠ '\n')) := by
    rw [cursor.starts_eq, hsource, Array.getD_eq_getD_getElem?, getElem?_lineStarts,
      Option.getD_some]
  rw [hsource, locate_byteLength, placeOf, hline, hstart, hsource, hslice,
    ← Position.line_past_origin cursor.file, ← Position.column_past_origin cursor.file,
    Position.mk.injEq]
  exact ⟨rfl, rfl, (Position.file_past (.origin cursor.file) front).symm⟩

end Cursor

end Pins.Text

namespace Pins

open Text

namespace Lexer

/-- The tokens of pieces lie between the places that a cursor looks up for their ends. -/
theorem placeOf_of_mem_lexemes {cursor : Cursor} {pieces : List Piece} (front : List Char)
    (hsource : cursor.source = front ++ textOf pieces) :
    ∀ token ∈ lexemes cursor.file cursor.source (byteLength front) pieces, ∃ start stop,
      IsBoundary cursor.source start ∧ IsBoundary cursor.source stop ∧
        token.span = ⟨cursor.placeOf start, cursor.placeOf stop⟩ := by
  induction pieces generalizing front with
  | nil => exact fun _ hmem => absurd hmem List.not_mem_nil
  | cons piece pieces ih =>
    have hsource' : cursor.source = (front ++ piece.text) ++ textOf pieces := by
      rw [hsource, textOf_cons, List.append_assoc]
    have hrest := ih (front ++ piece.text) hsource'
    have hstart : IsBoundary cursor.source (byteLength front) := ⟨front, _, hsource, rfl⟩
    have hstop : IsBoundary cursor.source (byteLength front + byteLength piece.text) :=
      ⟨front ++ piece.text, _, hsource', (byteLength_append _ _).symm⟩
    rw [byteLength_append] at hrest
    cases piece with
    | skipped text => exact hrest
    | lexeme text kind value =>
      refine List.forall_mem_cons.mpr ⟨⟨_, _, hstart, hstop, ?_⟩, hrest⟩
      rw [Cursor.placeOf_eq_locate hstart, Cursor.placeOf_eq_locate hstop]
      rfl

end Lexer

/-- The tokens of a source, whose places are found by walking over it, lie between places that a
cursor looks up. -/
theorem placeOf_of_tokenize {file source : String} {tokens : List Token}
    (h : tokenize file source = .ok tokens) : ∀ token ∈ tokens, ∃ start stop,
      IsBoundary source.toList start ∧ IsBoundary source.toList stop ∧
        token.span = ⟨(Cursor.atStart file source).placeOf start,
          (Cursor.atStart file source).placeOf stop⟩ := by
  obtain ⟨pieces, htext, _, rfl⟩ := Lexer.exists_cut_of_tokenize h
  intro token hmem
  rcases List.mem_append.mp hmem with hlexeme | hend
  · exact @Lexer.placeOf_of_mem_lexemes (.atStart file source) pieces [] htext.symm token hlexeme
  · obtain rfl := List.mem_singleton.mp hend
    have hstop : IsBoundary source.toList (byteLength source.toList) :=
      ⟨source.toList, [], (List.append_nil _).symm, rfl⟩
    refine ⟨_, _, hstop, hstop, ?_⟩
    rw [@Cursor.placeOf_eq_locate (.atStart file source) _ hstop]
    rfl

end Pins
