import Mathlib.Data.List.TakeWhile
import Pins.Token.Lexer

/-!
# Pieces of a text

What a piece of a text may be is said without the order in which readers are tried: a run that
cannot be longer, a mark that no other mark extends, or a literal that ends at its closing quote
(`Piece.Stands`). The piece at the front of a text stands in front of the rest
(`Piece.fronts_of_first`), and a piece that stands in front of a text is the one read there
(`Piece.first_of_stands`).
-/

namespace Pins

open Text

namespace Text

/-- A text and the text behind it meet where a run of characters of one sort ends. -/
structure IsRun (sort : Char → Bool) (text behind : List Char) : Prop where
  /-- The text is of the sort throughout. -/
  all : ∀ c ∈ text, sort c = true
  /-- The next character is not. -/
  next : ∀ c ∈ behind.head?, sort c = false

namespace IsRun

variable {sort : Char → Bool} {text behind : List Char} {c : Char}

/-- The longest beginning of one sort is a run. -/
theorem of_takeWhile (sort : Char → Bool) (source : List Char) :
    IsRun sort (source.takeWhile sort) (source.dropWhile sort) where
  all := List.all_eq_true.mp List.all_takeWhile
  next := by
    intro c hc
    have hnot := List.head?_dropWhile_not sort source
    rw [Option.mem_def.mp hc] at hnot
    exact hnot

/-- Nothing of the sort is left behind a run. -/
theorem takeWhile_eq_nil (h : IsRun sort text behind) : behind.takeWhile sort = [] := by
  cases behind with
  | nil => rfl
  | cons c rest => rw [List.takeWhile_cons_of_neg (by simp [h.next c rfl])]

/-- A run is the longest beginning of its sort. -/
theorem takeWhile_eq (h : IsRun sort text behind) : (text ++ behind).takeWhile sort = text := by
  rw [List.takeWhile_append_of_pos h.all, h.takeWhile_eq_nil, List.append_nil]

/-- Behind the longest beginning stands what stands behind the run. -/
theorem dropWhile_eq (h : IsRun sort text behind) : (text ++ behind).dropWhile sort = behind := by
  have hsplit := List.takeWhile_append_dropWhile (p := sort) (l := text ++ behind)
  rw [h.takeWhile_eq] at hsplit
  exact List.append_cancel_left hsplit

/-- A run can be told from what follows it. -/
theorem append_inj {other after : List Char} (h : IsRun sort text behind)
    (h' : IsRun sort other after) (he : text ++ behind = other ++ after) :
    text = other ∧ behind = after := by
  have hrun := congrArg (List.takeWhile sort) he
  rw [h.takeWhile_eq, h'.takeWhile_eq] at hrun
  subst hrun
  exact ⟨rfl, List.append_cancel_left he⟩

/-- A character of the sort in front of a run makes the run longer by one. -/
theorem cons (hc : sort c = true) (h : IsRun sort text behind) : IsRun sort (c :: text) behind where
  all := List.forall_mem_cons.mpr ⟨hc, h.all⟩
  next := h.next

end IsRun

namespace Literal

variable {value rest body behind : List Char} {c : Char}

/-- Doubling quotes adds no other character and drops none. -/
@[simp] theorem mem_double : c ∈ double value ↔ c ∈ value := by
  induction value with
  | nil => rfl
  | cons d rest ih =>
    by_cases quote : d = '\''
    · simp [double, quote, ih]
    · simp [double, quote, ih]

/-- A character that ends nothing belongs to the literal if the rest has an end. -/
theorem body?_cons (hquote : c ≠ '\'') (hfeed : c ≠ '\n') (rest : List Char) :
    body? (c :: rest) = (body? rest).map (c :: ·) := by
  cases rest with
  | nil => rw [body?, body?, Option.map_none]; simpa using hquote
  | cons d others => rw [body?, if_neg hquote, if_neg hfeed]

/-- A literal has doubled quotes only; it ends at a quote, and at the first one of a pair only if
no quote closes the line behind the pair. -/
theorem body?_eq_some (h : body? rest = some body) : ∃ value behind,
    body = double value ∧ rest = double value ++ '\'' :: behind ∧
      ∀ others, behind = '\'' :: others → body? others = none := by
  fun_induction body? rest generalizing body with
  | case1 => cases h
  | case2 =>
    cases h
    exact ⟨[], [], rfl, rfl, fun _ he => nomatch he⟩
  | case3 rest inner hinner ih =>
    cases h
    obtain ⟨value, behind, rfl, hrest, hlast⟩ := ih hinner
    exact ⟨'\'' :: value, behind, by simp [double], by simp [double, ← hrest], hlast⟩
  | case4 rest hnone =>
    cases h
    exact ⟨[], '\'' :: rest, rfl, rfl, fun others he => (List.cons.inj he).2 ▸ hnone⟩
  | case5 d rest hne =>
    cases h
    exact ⟨[], d :: rest, rfl, rfl, fun others he => absurd (List.cons.inj he).1 hne⟩
  | case6 => cases h
  | case7 c d rest hquote _ ih =>
    obtain ⟨inner, hinner, rfl⟩ := Option.map_eq_some_iff.mp h
    obtain ⟨value, behind, rfl, hrest, hlast⟩ := ih hinner
    exact ⟨c :: value, behind, by simp [double, hquote], by simp [double, hquote, hrest], hlast⟩
  | case8 => cases h

/-- A doubled text between quotes is a literal unless one more quote follows. -/
theorem body?_double (hline : '\n' ∉ value) (hnext : ∀ c ∈ behind.head?, c ≠ '\'') :
    body? (double value ++ '\'' :: behind) = some (double value) := by
  induction value with
  | nil =>
    cases behind with
    | nil => rfl
    | cons d others => simp [double, body?, hnext d rfl]
  | cons c rest ih =>
    have hrest := ih (fun hmem => hline (List.mem_cons_of_mem _ hmem))
    have hfeed : c ≠ '\n' := fun he => hline (he ▸ List.mem_cons_self)
    by_cases quote : c = '\''
    · simp [double, quote, body?, hrest]
    · simp only [double, if_neg quote, List.cons_append]
      rw [body?_cons quote hfeed, hrest, Option.map_some]

/-- What may stand in a literal may stand in it doubled. -/
theorem dropWhile_double (h : ∀ c ∈ value, isAllowed c = true) :
    (double value).dropWhile isAllowed = [] :=
  List.dropWhile_eq_nil_iff.mpr fun c hc => h c (mem_double.mp hc)

end Literal

end Text

namespace TokenKind

/-- A mark is tried before those it begins with. -/
theorem marks_pairwise :
    marks.Pairwise fun earlier later => ¬ earlier.1.toList <+: later.1.toList := by
  decide +kernel

/-- A mark is one character or two. -/
theorem length_of_mem_marks {mark : String × TokenKind} (h : mark ∈ marks) :
    0 < mark.1.toList.length ∧ mark.1.toList.length ≤ 2 := by
  have hall : ∀ mark ∈ marks, 0 < mark.1.toList.length ∧ mark.1.toList.length ≤ 2 := by
    decide +kernel
  exact hall mark h

end TokenKind

namespace Lexer

open TokenKind

section Sorts

variable {c : Char}

theorem isDigit_iff : isDigit c = true ↔ 48 ≤ c.toNat ∧ c.toNat ≤ 57 := by
  simp [isDigit, Char.le_def, UInt32.le_iff_toNat_le]

theorem isWordStart_iff : isWordStart c = true ↔
    (97 ≤ c.toNat ∧ c.toNat ≤ 122) ∨ (65 ≤ c.toNat ∧ c.toNat ≤ 90) ∨ c.toNat = 95 := by
  have hunder : c = '_' ↔ c.toNat = 95 := by
    rw [← Char.toNat_inj]
    rfl
  simp [isWordStart, Char.le_def, UInt32.le_iff_toNat_le, hunder, or_assoc]

/-- No digit begins a word. -/
theorem isDigit_of_isWordStart (h : isWordStart c = true) : isDigit c = false := by
  rw [Bool.eq_false_iff, Ne, isDigit_iff]
  rw [isWordStart_iff] at h
  omega

/-- What numbers and words are made of begins neither a run of blanks, nor a comment, nor a
literal. -/
theorem of_isWordPart (h : isWordPart c = true) : isBlank c = false ∧ c ≠ '#' ∧ c ≠ '\'' := by
  have hcode : 48 ≤ c.toNat ∧ c.toNat ≤ 122 := by
    rw [isWordPart, Bool.or_eq_true, isWordStart_iff, isDigit_iff] at h
    omega
  refine ⟨?_, ?_, ?_⟩
  · simp only [isBlank, Bool.or_eq_false_iff, Bool.and_eq_false_iff, decide_eq_false_iff_not,
      beq_eq_false_iff_ne]
    omega
  · rintro rfl
    revert hcode
    decide
  · rintro rfl
    revert hcode
    decide

/-- No mark begins like anything that is tried before the marks. -/
theorem of_head_mark {mark : String × TokenKind} (hmem : mark ∈ marks)
    (hc : c ∈ mark.1.toList.head?) : isBlank c = false ∧ c ≠ '#' ∧ c ≠ '\'' ∧
      isDigit c = false ∧ isWordStart c = false := by
  have hall : marks.all (fun mark => mark.1.toList.head?.all fun c =>
      !isBlank c && c != '#' && c != '\'' && !isDigit c && !isWordStart c) = true := by
    decide +kernel
  have hmark := List.all_eq_true.mp hall mark hmem
  rw [Option.mem_def.mp hc, Option.all_some] at hmark
  simpa [and_assoc] using hmark

end Sorts

namespace Piece

/-- What a piece of a text may be in front of the text behind it. -/
inductive Stands : Piece → List Char → Prop where
  /-- A run of blanks. -/
  | blanks {text behind : List Char} (hne : text ≠ []) (hrun : IsRun isBlank text behind) :
      Stands (.skipped text) behind
  /-- A comment up to the end of its line. -/
  | comment {text behind : List Char} (hrun : IsRun (· ≠ '\n') text behind) :
      Stands (.skipped ('#' :: text)) behind
  /-- A run of digits in front of which no word begins. -/
  | number {digits behind : List Char} (hne : digits ≠ []) (hrun : IsRun isDigit digits behind)
      (hnext : ∀ c ∈ behind.head?, isWordStart c = false) :
      Stands (.lexeme digits .integer (String.ofList digits)) behind
  /-- A word, of the kind that the reserved words say. -/
  | word {c : Char} {rest behind : List Char} (hstart : isWordStart c = true)
      (hrun : IsRun isWordPart (c :: rest) behind) :
      Stands (.lexeme (c :: rest) (.ofWord (String.ofList (c :: rest)))
        (String.ofList (c :: rest))) behind
  /-- A mark that is not the beginning of a longer one. -/
  | mark {mark : String × TokenKind} {behind : List Char} (hmem : mark ∈ marks)
      (hnext : ∀ c ∈ behind.head?, ∀ longer ∈ marks, longer.1.toList ≠ mark.1.toList ++ [c]) :
      Stands (.lexeme mark.1.toList mark.2 mark.1) behind
  /-- A printable text with its quotes doubled, between quotes. -/
  | string {value : List Char} {behind : List Char}
      (hall : ∀ c ∈ value, Literal.isAllowed c = true)
      (hnext : ∀ c ∈ behind.head?, c ≠ '\'') :
      Stands (.lexeme ('\'' :: Literal.double value ++ ['\'']) .string (String.ofList value)) behind

section

variable {piece : Piece} {c : Char} {rest source behind : List Char}

/-- A piece has at least one character. -/
theorem Stands.text_ne_nil (h : piece.Stands behind) : piece.text ≠ [] := by
  cases h with
  | blanks hne _ => exact hne
  | number hne _ _ => exact hne
  | mark hmem _ => exact List.length_pos_iff.mp (length_of_mem_marks hmem).1
  | comment | word | string => exact List.cons_ne_nil _ _

/-- A quote at the front of a text opens a literal that is closed. -/
def Closes (source : List Char) : Prop :=
  ∀ others, source = '\'' :: others → (Literal.body? others).isSome

/-- A piece is read off the front of a text, and it is what may stand there if the text behind it
can be read on. -/
def Fronts (piece : Piece) (source : List Char) : Prop :=
  ∃ behind, source = piece.text ++ behind ∧ (Closes behind → piece.Stands behind)

/-- Behind a quote a literal is read. -/
theorem fronts_of_literal (h : literal rest = .ok piece) : piece.Fronts ('\'' :: rest) := by
  unfold literal at h
  cases hbody : Literal.body? rest with
  | none => rw [hbody] at h; cases h
  | some body =>
    obtain ⟨value, behind, rfl, rfl, hlast⟩ := Literal.body?_eq_some hbody
    rw [hbody] at h
    dsimp only at h
    split at h
    · next hallowed =>
      cases h
      rw [Literal.halve_double]
      refine ⟨behind, by simp [text], fun hclosed => .string (fun c hc => ?_) ?_⟩
      · exact List.dropWhile_eq_nil_iff.mp hallowed c (Literal.mem_double.mpr hc)
      · rintro c hc rfl
        obtain ⟨others, rfl⟩ := List.head?_eq_some_iff.mp hc
        have hsome := hclosed others rfl
        rw [hlast others rfl] at hsome
        cases hsome
    · cases h

/-- A digit begins a number. -/
theorem fronts_of_number (hdigit : isDigit c = true) (h : number (c :: rest) = .ok piece) :
    piece.Fronts (c :: rest) := by
  have hrun := IsRun.of_takeWhile isDigit (c :: rest)
  have hne : (c :: rest).takeWhile isDigit ≠ [] := by
    rw [List.takeWhile_cons_of_pos hdigit]
    exact List.cons_ne_nil _ _
  have hsplit := (List.takeWhile_append_dropWhile (p := isDigit) (l := c :: rest)).symm
  unfold number at h
  dsimp only at h
  split at h
  · next hbehind =>
    cases h
    exact ⟨_, hsplit, fun _ => .number hne hrun (by simp [hbehind])⟩
  · next d others hbehind =>
    split at h
    · cases h
    · next hstart =>
      cases h
      exact ⟨_, hsplit, fun _ => .number hne hrun (by simpa [hbehind] using hstart)⟩

/-- A character that a word may begin with begins a word. -/
theorem fronts_word (hstart : isWordStart c = true) : (word (c :: rest)).Fronts (c :: rest) := by
  have hpart : isWordPart c = true := by simp [isWordPart, hstart]
  have hrun := IsRun.of_takeWhile isWordPart (c :: rest)
  have hsplit := (List.takeWhile_append_dropWhile (p := isWordPart) (l := c :: rest)).symm
  refine ⟨_, hsplit, fun _ => ?_⟩
  unfold word
  rw [List.takeWhile_cons_of_pos hpart] at hrun ⊢
  exact .word hstart hrun

/-- The mark that is read has no longer one in its place. -/
theorem fronts_of_mark (h : mark? source = some piece) : piece.Fronts source := by
  obtain ⟨mark, hfound, rfl⟩ := Option.map_eq_some_iff.mp h
  obtain ⟨hfront, before, after, hmarks, hbefore⟩ := List.find?_eq_some_iff_append.mp hfound
  obtain ⟨behind, rfl⟩ := List.isPrefixOf_iff_prefix.mp hfront
  refine ⟨behind, rfl, fun _ => .mark (List.mem_of_find?_eq_some hfound) ?_⟩
  intro c hc longer hmem hlonger
  obtain ⟨others, rfl⟩ := List.head?_eq_some_iff.mp hc
  rw [hmarks, List.mem_append, List.mem_cons] at hmem
  obtain hearlier | rfl | hlater := hmem
  · -- The longer mark would have been found first.
    have hnot := hbefore longer hearlier
    rw [Bool.not_eq_true', ← Bool.not_eq_true, List.isPrefixOf_iff_prefix, hlonger] at hnot
    exact hnot ⟨others, by simp⟩
  · simpa using congrArg List.length hlonger
  · -- The longer mark does not come behind the one it begins with.
    have hpair := marks_pairwise
    rw [hmarks, List.pairwise_append, List.pairwise_cons] at hpair
    exact hpair.2.1.1 longer hlater (hlonger ▸ List.prefix_append _ _)

/-- What is read at the front of a text is what may stand there. -/
theorem fronts_of_first (h : first c rest = .ok piece) : piece.Fronts (c :: rest) := by
  unfold first at h
  split at h
  · next hblank =>
    cases h
    have hrun := (IsRun.of_takeWhile isBlank rest).cons hblank
    exact ⟨_, by simp [text], fun _ => .blanks (List.cons_ne_nil _ _) hrun⟩
  split at h
  · next hmark =>
    cases h
    subst hmark
    exact ⟨_, by simp [text], fun _ => .comment (.of_takeWhile _ rest)⟩
  split at h
  · next hquote =>
    subst hquote
    exact fronts_of_literal h
  split at h
  · next hdigit => exact fronts_of_number hdigit h
  split at h
  · next hstart =>
    cases h
    exact fronts_word hstart
  split at h
  · next hmark =>
    cases h
    exact fronts_of_mark hmark
  · cases h

/-- A literal is read behind its opening quote. -/
theorem literal_of_string {value : List Char} (hall : ∀ c ∈ value, Literal.isAllowed c = true)
    (hnext : ∀ c ∈ behind.head?, c ≠ '\'') :
    literal (Literal.double value ++ '\'' :: behind) =
      .ok (.lexeme ('\'' :: Literal.double value ++ ['\'']) .string (String.ofList value)) := by
  have hline : '\n' ∉ value := fun hmem => absurd (hall _ hmem) (by decide)
  unfold literal
  rw [Literal.body?_double hline hnext]
  dsimp only
  rw [Literal.dropWhile_double hall, Literal.halve_double]

/-- A run of digits that no word follows is read. -/
theorem number_of_run (hrun : IsRun isDigit source behind)
    (hnext : ∀ c ∈ behind.head?, isWordStart c = false) :
    number (source ++ behind) = .ok (.lexeme source .integer (String.ofList source)) := by
  unfold number
  rw [hrun.takeWhile_eq, hrun.dropWhile_eq]
  cases behind with
  | nil => rfl
  | cons d others => simp [hnext d rfl]

/-- A mark that no longer one takes the place of is read. -/
theorem mark?_of_mem {mark : String × TokenKind} (hmem : mark ∈ marks)
    (hnext : ∀ c ∈ behind.head?, ∀ longer ∈ marks, longer.1.toList ≠ mark.1.toList ++ [c]) :
    mark? (mark.1.toList ++ behind) = some (.lexeme mark.1.toList mark.2 mark.1) := by
  obtain ⟨before, after, hmarks⟩ := List.append_of_mem hmem
  have hpair := marks_pairwise
  rw [hmarks, List.pairwise_append] at hpair
  refine Option.map_eq_some_iff.mpr ⟨mark, ?_, rfl⟩
  refine List.find?_eq_some_iff_append.mpr
    ⟨List.isPrefixOf_iff_prefix.mpr (List.prefix_append _ _), before, after, hmarks, ?_⟩
  intro earlier hearlier
  rw [Bool.not_eq_true', ← Bool.not_eq_true, List.isPrefixOf_iff_prefix]
  intro hfront
  have hin : earlier ∈ marks := hmarks ▸ List.mem_append_left _ hearlier
  -- An earlier mark is no beginning of this one, so it would go on behind it, by one character.
  have hnot := hpair.2.2 earlier hearlier mark List.mem_cons_self
  obtain hshort | ⟨more, hmore⟩ := List.prefix_or_prefix_of_prefix hfront
    (List.prefix_append mark.1.toList behind)
  · exact hnot hshort
  · have hlength := congrArg List.length hmore
    rw [List.length_append] at hlength
    have hlow := length_of_mem_marks hmem
    have hhigh := length_of_mem_marks hin
    obtain _ | ⟨d, _ | ⟨e, others⟩⟩ := more
    · exact hnot ⟨[], by simp [← hmore]⟩
    · rw [← hmore, List.prefix_append_right_inj] at hfront
      obtain ⟨others, rfl⟩ := hfront
      exact hnext d rfl earlier hin hmore.symm
    · simp only [List.length_cons] at hlength
      omega

/-- What may stand at the front of a text is what is read there. -/
theorem first_of_stands (h : piece.Stands behind) (he : piece.text ++ behind = c :: rest) :
    first c rest = .ok piece := by
  unfold first
  cases h with
  | @blanks source _ hne hrun =>
    obtain ⟨d, others, rfl⟩ := List.exists_cons_of_ne_nil hne
    rw [text, List.cons_append, List.cons.injEq] at he
    obtain ⟨rfl, rfl⟩ := he
    have hothers : IsRun isBlank others behind :=
      ⟨fun e hmem => hrun.all e (List.mem_cons_of_mem _ hmem), hrun.next⟩
    rw [if_pos (hrun.all d List.mem_cons_self), hothers.takeWhile_eq]
  | comment hrun =>
    rw [text, List.cons_append, List.cons.injEq] at he
    obtain ⟨rfl, rfl⟩ := he
    rw [if_neg (by decide), if_pos rfl, hrun.takeWhile_eq]
  | string hall hnext =>
    rw [text, List.cons_append, List.cons_append, List.append_assoc, List.cons.injEq] at he
    obtain ⟨rfl, rfl⟩ := he
    rw [if_neg (by decide), if_neg (by decide), if_pos rfl]
    exact literal_of_string hall hnext
  | number hne hrun hnext =>
    have hdigit : isDigit c = true := by
      obtain ⟨d, others, rfl⟩ := List.exists_cons_of_ne_nil hne
      exact (List.cons.inj he).1 ▸ hrun.all d List.mem_cons_self
    obtain ⟨hblank, hcomment, hquote⟩ := of_isWordPart (c := c) (by simp [isWordPart, hdigit])
    rw [if_neg (by simp [hblank]), if_neg hcomment, if_neg hquote, if_pos hdigit, ← he]
    exact number_of_run hrun hnext
  | word hstart hrun =>
    rw [text, List.cons_append, List.cons.injEq] at he
    obtain ⟨rfl, rfl⟩ := he
    obtain ⟨hblank, hcomment, hquote⟩ := of_isWordPart (hrun.all _ List.mem_cons_self)
    rw [if_neg (by simp [hblank]), if_neg hcomment, if_neg hquote,
      if_neg (by simp [isDigit_of_isWordStart hstart]), if_pos hstart, word, ← List.cons_append,
      hrun.takeWhile_eq]
  | @mark mark _ hmem hnext =>
    have hhead : c ∈ mark.1.toList.head? := by
      obtain ⟨d, others, hmark⟩ :=
        List.exists_cons_of_ne_nil (List.length_pos_iff.mp (length_of_mem_marks hmem).1)
      rw [text, hmark] at he
      rw [hmark, (List.cons.inj he).1]
      rfl
    obtain ⟨hblank, hcomment, hquote, hdigit, hstart⟩ := of_head_mark hmem hhead
    rw [if_neg (by simp [hblank]), if_neg hcomment, if_neg hquote, if_neg (by simp [hdigit]),
      if_neg (by simp [hstart]), ← he, text, mark?_of_mem hmem hnext]

end

end Piece

end Lexer

end Pins
