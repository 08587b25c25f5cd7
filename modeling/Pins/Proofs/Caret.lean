import Mathlib.Data.List.DropRight
import Pins.Diagnostic.Report
import Pins.Proofs.Visible

/-!
# The caret of a report

The report on a diagnostic ends in two lines: the line of the place, without its indentation, and a
marker. The number of the line, the indentation that was removed and the dashes of the marker are
measured apart from each other, and the place was counted from bytes; the caret comes to stand below
the character at the place all the same (`Compilation.report_underlined`). What could spoil this is
a place in the indentation of a line or among the blanks at its end, and no diagnostic has one.
-/

namespace Pins

open Text

namespace Text

variable {file : String} {front back source text line indent shown before after : List Char}
  {c : Char}

/-- The character at a place, found by its line and by its column. -/
def charAt? (source : List Char) (place : Position) : Option Char := do
  let text ← (lines source)[place.line - 1]?
  text[place.column - 1]?

/-- What stands on the last line of a text. -/
def lastLine (text : List Char) : List Char := text.rtakeWhile (· ≠ '\n')

@[simp] theorem lastLine_nil : lastLine [] = [] := rfl

@[simp] theorem lastLine_feed (text : List Char) : lastLine (text ++ ['\n']) = [] :=
  List.rtakeWhile_concat_neg _ _ _ (by simp)

theorem lastLine_concat (text : List Char) (hc : c ≠ '\n') :
    lastLine (text ++ [c]) = lastLine text ++ [c] :=
  List.rtakeWhile_concat_pos _ _ _ (by simpa using hc)

/-- A text without a line feed goes on with the last line. -/
theorem lastLine_append (front : List Char) (h : '\n' ∉ text) :
    lastLine (front ++ text) = lastLine front ++ text := by
  induction text using List.reverseRecOn with
  | nil => simp
  | append_singleton text c ih =>
    rw [List.mem_append, not_or, List.mem_singleton] at h
    rw [← List.append_assoc, lastLine_concat _ (Ne.symm h.2), ih h.1, List.append_assoc]

/-- A line feed parts the lines in front of it from those behind it. -/
theorem lines_append_feed (front back : List Char) :
    lines (front ++ '\n' :: back) = lines front ++ lines back := by
  induction front with
  | nil => simp [lines]
  | cons c rest ih =>
    by_cases hc : c = '\n'
    · simp [lines, hc, ih]
    · obtain ⟨first, others, hlines⟩ := List.exists_cons_of_ne_nil (lines_ne_nil rest)
      rw [hlines] at ih
      simp [lines, hc, ih, hlines]

/-- The first line of a text ends at its first line feed. -/
theorem getElem?_lines_zero (text : List Char) : (lines text)[0]? = some (Literal.line text) := by
  induction text with
  | nil => rfl
  | cons c rest ih =>
    by_cases hc : c = '\n'
    · simp [lines, Literal.line, hc]
    · obtain ⟨first, others, hlines⟩ := List.exists_cons_of_ne_nil (lines_ne_nil rest)
      rw [hlines, List.getElem?_cons_zero, Option.some_inj] at ih
      simp [lines, hc, hlines, Literal.line_cons, ih]

/-- Around a place in a text stands the line that the front leaves off and the rest goes on with. -/
theorem getElem?_lines_append (front back : List Char) :
    (lines (front ++ back))[front.count '\n']? = some (lastLine front ++ Literal.line back) := by
  induction front using List.reverseRecOn generalizing back with
  | nil => exact getElem?_lines_zero back
  | append_singleton front c ih =>
    rw [List.append_assoc, List.singleton_append]
    by_cases hc : c = '\n'
    · subst hc
      rw [lines_append_feed, List.count_append, List.count_singleton_self, ← length_lines,
        List.getElem?_append_right (Nat.le_refl _), Nat.sub_self, getElem?_lines_zero,
        lastLine_feed, List.nil_append]
    · have hcount : (front ++ [c]).count '\n' = front.count '\n' := by simp [hc]
      rw [hcount, ih, Literal.line_cons hc, lastLine_concat _ hc, List.append_assoc,
        List.singleton_append]

/-- The line behind a text counts its line feeds. -/
theorem Position.line_past_origin (file : String) (front : List Char) :
    ((origin file).past front).line = front.count '\n' + 1 := by
  rw [line_past, origin, Nat.add_comm]

/-- The column behind a text counts the characters on its last line. -/
theorem Position.column_past_origin (file : String) (front : List Char) :
    ((origin file).past front).column = (lastLine front).length + 1 := by
  induction front using List.reverseRecOn with
  | nil => rfl
  | append_singleton front c ih =>
    rw [past_append, past_cons, past_nil, next]
    by_cases hc : c = '\n'
    · subst hc
      rw [if_pos rfl, lastLine_feed, List.length_nil]
    · rw [if_neg hc, lastLine_concat _ hc, List.length_append, List.length_singleton, ih]

/-- The line of the place behind a text. -/
theorem getElem?_lines_past (file : String) (front back : List Char) :
    (lines (front ++ back))[((Position.origin file).past front).line - 1]? =
      some (lastLine front ++ Literal.line back) := by
  rw [Position.line_past_origin, Nat.add_sub_cancel, getElem?_lines_append]

/-- The line of the place behind a text, as a report takes it. -/
theorem line?_past (file : String) (front back : List Char) :
    line? (front ++ back) ((Position.origin file).past front).line =
      some (trimEnd (· == '\r') (lastLine front ++ Literal.line back)) := by
  rw [Position.line_past_origin, line?, getElem?_lines_append, Option.map_some]

/-- At the place behind a text stands what the line goes on with. -/
theorem charAt?_past (file : String) (front back : List Char) :
    charAt? (front ++ back) ((Position.origin file).past front) = (Literal.line back).head? := by
  rw [charAt?, getElem?_lines_past, Position.column_past_origin, Nat.add_sub_cancel,
    Option.bind_eq_bind, Option.bind_some, List.getElem?_append_right (Nat.le_refl _), Nat.sub_self,
    List.head?_eq_getElem?]

/-- Only characters of the kind are dropped from the end of a text. -/
theorem exists_trimEnd_append (drop : Char → Bool) (text : List Char) :
    ∃ gap, text = trimEnd drop text ++ gap ∧ ∀ c ∈ gap, drop c = true :=
  ⟨text.rtakeWhile drop, (List.rdropWhile_append_rtakeWhile ..).symm,
    fun _ => List.mem_rtakeWhile_imp⟩

/-- Behind a trimmed text no character of the kind is left. -/
theorem not_of_getLast?_trimEnd {drop : Char → Bool} (h : (trimEnd drop text).getLast? = some c) :
    drop c = false := by
  have hnot := List.head?_dropWhile_not drop text.reverse
  rw [trimEnd, List.getLast?_reverse] at h
  rwa [h] at hnot

/-- A line has some indentation, then what a report shows of it, then blanks. -/
structure ShownAs (line indent shown : List Char) : Prop where
  /-- What is left out at the end is blank. -/
  parts : ∃ gap, line = indent ++ shown ++ gap ∧ ∀ c ∈ gap, isBlank c = true
  /-- What is left out in front are spaces and tabs. -/
  indent : ∀ c ∈ indent, isIndent c = true
  /-- What is shown does not begin with a space or a tab. -/
  head : ∀ c, shown.head? = some c → isIndent c = false
  /-- What is shown does not end in a blank. -/
  last : ∀ c, shown.getLast? = some c → isBlank c = false

/-- What a report leaves out of a line and what it shows of it. -/
theorem shownAs (line : List Char) :
    ShownAs line ((trimEnd (· == '\r') line).takeWhile isIndent)
      (trimEnd isBlank ((trimEnd (· == '\r') line).dropWhile isIndent)) := by
  obtain ⟨returns, hline, hreturns⟩ := exists_trimEnd_append (· == '\r') line
  generalize trimEnd (· == '\r') line = kept at hline ⊢
  obtain ⟨gap, hkept, hgap⟩ := exists_trimEnd_append isBlank (kept.dropWhile isIndent)
  refine ⟨⟨gap ++ returns, ?_, ?_⟩, fun c hc => List.mem_takeWhile_imp hc, fun c hc => ?_,
    fun c => not_of_getLast?_trimEnd⟩
  · calc line = kept ++ returns := hline
      _ = kept.takeWhile isIndent ++ kept.dropWhile isIndent ++ returns := by
        rw [List.takeWhile_append_dropWhile]
      _ = _ := by
        conv => lhs; rw [hkept]
        simp only [List.append_assoc]
  · intro c hc
    rcases List.mem_append.mp hc with hc | hc
    · exact hgap c hc
    · obtain rfl : c = '\r' := by simpa using hreturns c hc
      decide
  · have hnot := List.head?_dropWhile_not isIndent kept
    rw [hkept, List.head?_append, hc] at hnot
    exact hnot

/-- A character is shown if the indentation ends no later than at it and the blanks at the end begin
behind it. -/
theorem ShownAs.getElem?_shown (h : ShownAs (before ++ c :: after) indent shown)
    (hfront : ∃ d ∈ before ++ [c], isIndent d = false)
    (hbehind : ∃ d ∈ c :: after, isBlank d = false) :
    indent.length ≤ before.length ∧ shown[before.length - indent.length]? = some c := by
  obtain ⟨gap, hparts, hgap⟩ := h.parts
  have hindent : indent.length ≤ before.length := by
    -- else all of the line up to the character would be indentation
    by_contra hlt
    obtain ⟨d, hd, hnot⟩ := hfront
    have hleading : before ++ [c] <+: indent :=
      List.prefix_of_prefix_length_le ⟨after, List.append_assoc before [c] after⟩
        ⟨shown ++ gap, by rw [List.singleton_append, hparts, List.append_assoc]⟩
        (by rw [List.length_append, List.length_singleton]; omega)
    exact Bool.false_ne_true (hnot.symm.trans (h.indent d (hleading.subset hd)))
  have hshown : before.length < (indent ++ shown).length := by
    -- else all of the line from the character on would be blank
    by_contra hle
    obtain ⟨d, hd, hnot⟩ := hbehind
    have hlength := congrArg List.length hparts
    have htrailing : c :: after <:+ gap :=
      List.suffix_of_suffix_length_le ⟨before, rfl⟩ ⟨indent ++ shown, hparts.symm⟩
        (by rw [List.length_append, List.length_append] at hlength; omega)
    exact Bool.false_ne_true (hnot.symm.trans (hgap d (htrailing.subset hd)))
  refine ⟨hindent, ?_⟩
  calc shown[before.length - indent.length]?
      = (indent ++ shown)[before.length]? := (List.getElem?_append_right hindent).symm
    _ = (indent ++ shown ++ gap)[before.length]? := (List.getElem?_append_left hshown).symm
    _ = (before ++ c :: after)[before.length]? := by rw [hparts]
    _ = some c := by rw [List.getElem?_append_right (Nat.le_refl _), Nat.sub_self,
      List.getElem?_cons_zero]

/-- Spaces and tabs are blank. -/
theorem isIndent_eq_false (h : isBlank c = false) : isIndent c = false := by
  by_contra hindent
  obtain rfl | rfl : c = ' ' ∨ c = '\t' := by simpa [isIndent, or_iff_not_imp_left] using hindent
  all_goals exact absurd h (by decide)

/-- What can be seen is neither part of the indentation nor of the blanks at the end of its line. -/
theorem Visible.on_line (h : Visible front (c :: back)) :
    c ≠ '\n' ∧ (∃ d ∈ lastLine front ++ [c], isIndent d = false) ∧
      ∃ d ∈ c :: Literal.line back, isBlank d = false := by
  cases h with
  | character hc =>
    refine ⟨?_, ⟨c, by simp, isIndent_eq_false hc⟩, c, by simp, hc⟩
    rintro rfl
    exact absurd hc (by decide)
  | inLiteral hinside hc hclosed =>
    refine ⟨hc, ⟨'\'', ?_, by decide⟩, '\'', List.mem_cons_of_mem _ hclosed, by decide⟩
    rw [lastLine_append _ (by simpa using hinside)]
    simp

end Text

namespace Diagnostic

variable {diagnostic : Diagnostic} {file : String} {source shown : List Char}

/-- A line of a source as it is printed, behind its number. -/
def printed (number : Nat) (shown : List Char) : String :=
  toString number ++ " | " ++ String.ofList shown

/-- What stands in front of the caret, below a line that lost so many characters of indentation. -/
def underline (place : Position) (removed : Nat) : List Char :=
  List.replicate ((toString place.line).length + 1) ' ' ++ ['|', ' '] ++
    List.replicate (markerWidth place.column removed - 1) '-'

theorem toList_printed (number : Nat) (shown : List Char) :
    (printed number shown).toList = (toString number).toList ++ [' ', '|', ' '] ++ shown := by
  simp [printed]

/-- A printed line is longer than what is shown by the number and the bar. -/
theorem length_printed (number : Nat) (shown : List Char) :
    (printed number shown).toList.length = (toString number).length + 3 + shown.length := by
  rw [toList_printed, List.length_append, List.length_append, String.length_toList]
  rfl

/-- Behind the number and the bar stands what is shown of the line. -/
theorem getElem?_printed (number index : Nat) (shown : List Char) :
    (printed number shown).toList[(toString number).length + 3 + index]? = shown[index]? := by
  have hlength : ((toString number).toList ++ [' ', '|', ' ']).length =
      (toString number).length + 3 := by
    rw [List.length_append, String.length_toList]
    rfl
  rw [toList_printed, List.getElem?_append_right (by omega), hlength, Nat.add_sub_cancel_left]

/-- The caret stands behind the number, the bar and the dashes. -/
theorem length_underline (place : Position) (removed : Nat) :
    (underline place removed).length =
      (toString place.line).length + 3 + (place.column - removed - 1) := by
  simp only [underline, List.length_append, List.length_replicate, List.length_cons,
    List.length_nil, markerWidth]
  omega

/-- No caret stands in front of the caret. -/
theorem caret_notMem_underline (place : Position) (removed : Nat) :
    '^' ∉ underline place removed := by
  simp [underline]

/-- The report on a diagnostic ends in the line of its place and in a marker whose caret stands
below the place. -/
structure Underlined (diagnostic : Diagnostic) (source indent shown before : List Char) :
    Prop where
  /-- The source has the line, which begins with the indentation. -/
  line : ∃ line, (lines source)[diagnostic.position.line - 1]? = some line ∧
    ShownAs line indent shown
  /-- The last line of the report is the marker, and the one before it is what is shown. -/
  report : ∃ bar, diagnostic.reportLines source = diagnostic.heading ++
    [bar, printed diagnostic.position.line shown, String.ofList (before ++ ['^'])]
  /-- The marker has one caret. -/
  caret : '^' ∉ before
  /-- The character at the place has some index among what is shown, and with the number and the bar
  in front that is the column of the caret. -/
  above : ∀ c, charAt? source diagnostic.position = some c → ∃ index,
    diagnostic.position.column = indent.length + index + 1 ∧
    before.length = (toString diagnostic.position.line).length + 3 + index ∧
    (printed diagnostic.position.line shown).toList[before.length]? = some c
  /-- If there is no character at the place, then the caret stands behind the line. -/
  beyond : charAt? source diagnostic.position = none →
    (printed diagnostic.position.line shown).toList.length ≤ before.length

/-- What a report shows of a line, and its marker. -/
theorem excerpt_eq (place : Position) (line : List Char) :
    excerpt place line = [padLeft ((toString place.line).length + 2) "|",
      printed place.line (trimEnd isBlank (line.dropWhile isIndent)),
      String.ofList (underline place (line.takeWhile isIndent).length ++ ['^'])] := by
  have hbar : (toString place.line).length + 2 - "|".length = (toString place.line).length + 1 :=
    rfl
  simp only [excerpt, printed, underline, marker, padLeft, hbar]
  simp [String.ext_iff]

example : excerpt ⟨10, 5, "notes"⟩ " \tx\u00a0é ".toList =
    ["   |", "10 | x\u00a0é", "   | --^"] := by decide +kernel

/-- A report on what can be seen has its caret below it. -/
theorem underlined_of_isVisible (h : IsVisible file source diagnostic.position) :
    ∃ indent shown before, diagnostic.Underlined source indent shown before := by
  obtain ⟨front, back, rfl, hplace, hvisible⟩ := h
  have hline := getElem?_lines_past file front back
  have hchar := charAt?_past file front back
  have hcolumn := Position.column_past_origin file front
  have hkept := line?_past file front back
  rw [← hplace] at hline hchar hcolumn hkept
  have hshown := shownAs (lastLine front ++ Literal.line back)
  generalize trimEnd (· == '\r') (lastLine front ++ Literal.line back) = kept at hkept hshown
  have hreport : diagnostic.reportLines (front ++ back) =
      diagnostic.heading ++ excerpt diagnostic.position kept := by
    rw [reportLines, hkept]
  rw [excerpt_eq] at hreport
  have hlength := length_underline diagnostic.position (kept.takeWhile isIndent).length
  rw [hcolumn, Nat.sub_right_comm, Nat.add_sub_cancel] at hlength
  refine ⟨_, _, underline diagnostic.position (kept.takeWhile isIndent).length,
    ⟨_, hline, hshown⟩, ⟨_, hreport⟩, caret_notMem_underline _ _, fun c hc => ?_, fun hnone => ?_⟩
  · rw [hchar] at hc
    cases back with
    | nil => cases hc
    | cons d rest =>
      -- the widths fit together whatever they are, if the character was not cut off
      obtain ⟨hfeed, hfront, hbehind⟩ := hvisible.on_line
      rw [Literal.line_cons hfeed] at hc hshown
      cases hc
      obtain ⟨hle, hget⟩ := hshown.getElem?_shown hfront hbehind
      refine ⟨_, ?_, hlength, ?_⟩
      · omega
      · rw [hlength, getElem?_printed, hget]
  · rw [hchar, List.head?_eq_none_iff] at hnone
    obtain ⟨gap, hparts, _⟩ := hshown.parts
    have hparted := congrArg List.length hparts
    rw [hnone, List.append_nil, List.length_append, List.length_append] at hparted
    rw [length_printed]
    omega

end Diagnostic

namespace Compilation

/-- Whatever is wrong with a source, the report on it shows the line of the place without its
indentation, and its caret stands below the character at the place, or behind the line if there is
none. -/
theorem report_underlined {file source : String} {diagnostic : Diagnostic}
    (h : ofSource file source = .error diagnostic) :
    ∃ indent shown before, diagnostic.Underlined source.toList indent shown before :=
  Diagnostic.underlined_of_isVisible (diagnostic_isVisible h)

/-- A character of more than one byte, behind another one, on an indented line whose number has two
digits. -/
theorem report_underlined_of_unreadable : ∃ diagnostic,
    ofSource "notes" "\n\n\n\n\n\n\n\n\n \tx\u00a0é" = .error diagnostic ∧
    ∃ indent shown before, diagnostic.Underlined
      "\n\n\n\n\n\n\n\n\n \tx\u00a0é".toList indent shown before := by
  have herror : (ofSource "notes" "\n\n\n\n\n\n\n\n\n \tx\u00a0é").isOk = false := by
    decide +kernel
  generalize "\n\n\n\n\n\n\n\n\n \tx\u00a0é" = source at herror ⊢
  cases h : ofSource "notes" source with
  | ok compiled => simp [h, Except.isOk, Except.toBool] at herror
  | error diagnostic => exact ⟨diagnostic, rfl, report_underlined h⟩

end Compilation

end Pins
