import Pins.Proofs.Cut

/-!
# Literals that are left open

A literal is read from left to right: two quotes in a row stand for one, and the first other quote
closes it (`Literal.closes_iff`). A literal that is not closed on its line is reported where it opens
if no further quote stands on the line (`unterminated_at_opening_iff`). Otherwise all quotes of the
line stand in pairs, and the last pair is torn apart: its first quote closes the literal after all,
and what is reported is a character of it that no literal may hold, or a literal that opens at the
second quote.
-/

namespace Pins

open Text

namespace Text

/-- Walking on within a line leads as many columns on as there are characters. -/
theorem Position.column_past {text : List Char} (place : Position) (h : '\n' ∉ text) :
    (place.past text).column = place.column + text.length := by
  induction text generalizing place with
  | nil => rfl
  | cons c rest ih =>
    have hc : c ≠ '\n' := fun he => h (he ▸ List.mem_cons_self)
    rw [past_cons, ih _ fun hm => h (List.mem_cons_of_mem _ hm), next, if_neg hc, List.length_cons]
    dsimp only
    omega

namespace Literal

variable {rest body tail value : List Char} {c : Char}

/-- The text behind an opening quote, read from left to right, closes its literal on the line. -/
def closes : List Char → Bool
  | [] => false
  | [c] => c == '\''
  | c :: d :: rest =>
    if c = '\'' then if d = '\'' then closes rest else true
    else if c = '\n' then false
    else closes (d :: rest)

/-- What is left of the line at the front of a text. -/
def line (text : List Char) : List Char := text.takeWhile (· ≠ '\n')

@[simp] theorem line_nil : line [] = [] := rfl

theorem line_cons (hc : c ≠ '\n') (rest : List Char) : line (c :: rest) = c :: line rest := by
  simp [line, hc]

/-- No line feed stands on a line. -/
theorem feed_notMem_line (text : List Char) : '\n' ∉ line text := by
  intro h
  have hall := (IsRun.of_takeWhile (· ≠ '\n') text).all '\n' h
  revert hall
  decide

/-- A line that begins with a text goes on behind it. -/
theorem exists_behind {front : List Char} (h : line rest = front ++ tail) :
    ∃ behind, rest = front ++ (tail ++ behind) ∧ line (tail ++ behind) = tail := by
  have hrun := IsRun.of_takeWhile (· ≠ '\n') rest
  have hsplit := (List.takeWhile_append_dropWhile (p := (· ≠ '\n')) (l := rest)).symm
  rw [← line, h] at hrun hsplit
  have htail : IsRun (· ≠ '\n') tail (rest.dropWhile (· ≠ '\n')) :=
    ⟨fun c hc => hrun.all c (List.mem_append_right _ hc), hrun.next⟩
  exact ⟨_, by rw [← List.append_assoc]; exact hsplit, htail.takeWhile_eq⟩

/-- A literal that is closed consists of a text with its quotes doubled and of a quote that no other
one follows. -/
theorem closes_iff : closes rest = true ↔ ∃ value behind, rest = double value ++ '\'' :: behind ∧
    '\n' ∉ value ∧ ∀ c ∈ behind.head?, c ≠ '\'' := by
  constructor
  · intro h
    fun_induction closes rest with
    | case1 => cases h
    | case2 c => exact ⟨[], [], by simpa [double] using h, by simp, by simp⟩
    | case3 rest ih =>
      obtain ⟨value, behind, rfl, hline, hnext⟩ := ih h
      exact ⟨'\'' :: value, behind, by simp [double], by simpa using hline, hnext⟩
    | case4 d rest hne => exact ⟨[], d :: rest, by simp [double], by simp, by simpa using hne⟩
    | case5 => cases h
    | case6 c d rest hquote hfeed ih =>
      obtain ⟨value, behind, hrest, hline, hnext⟩ := ih h
      exact ⟨c :: value, behind, by simp [double, hquote, hrest],
        by simpa [Ne.symm hfeed] using hline, hnext⟩
  · rintro ⟨value, behind, rfl, hline, hnext⟩
    induction value with
    | nil =>
      cases behind with
      | nil => rfl
      | cons d others => simp [double, closes, hnext d rfl]
    | cons c rest ih =>
      have hrest := ih fun hm => hline (List.mem_cons_of_mem _ hm)
      have hfeed : c ≠ '\n' := fun he => hline (he ▸ List.mem_cons_self)
      by_cases quote : c = '\''
      · simp [double, closes, quote, hrest]
      · obtain ⟨d, others, hcons⟩ : ∃ d others, double rest ++ '\'' :: behind = d :: others :=
          List.exists_cons_of_ne_nil (by simp)
        rw [hcons] at hrest
        simp [double, closes, quote, hfeed, hcons, hrest]

/-- Without a quote on its line a literal has no end. -/
theorem body?_eq_none (h : '\'' ∉ line rest) : body? rest = none := by
  induction rest with
  | nil => rfl
  | cons c rest ih =>
    by_cases feed : c = '\n'
    · subst feed
      cases rest <;> rfl
    · rw [line_cons feed, List.mem_cons, not_or] at h
      rw [body?_cons (Ne.symm h.1) feed, ih h.2, Option.map_none]

/-- The quotes on the line of a literal that is not closed stand in pairs, one of which is the last
one. -/
theorem exists_last_pair (hopen : closes rest = false) (h : '\'' ∈ line rest) :
    ∃ body tail, line rest = body ++ '\'' :: '\'' :: tail ∧ '\'' ∉ tail := by
  fun_induction closes rest with
  | case1 => cases h
  | case2 c =>
    have hc : c ≠ '\'' := by simpa using hopen
    by_cases feed : c = '\n'
    · subst feed; cases h
    · simp [line_cons feed, Ne.symm hc] at h
  | case3 rest ih =>
    have hfeed : '\'' ≠ '\n' := by decide
    rw [line_cons hfeed, line_cons hfeed]
    by_cases hm : '\'' ∈ line rest
    · obtain ⟨body, tail, hline, htail⟩ := ih hopen hm
      exact ⟨'\'' :: '\'' :: body, tail, by simp [hline], htail⟩
    · exact ⟨[], line rest, rfl, hm⟩
  | case4 => cases hopen
  | case5 => cases h
  | case6 c d rest hquote hfeed ih =>
    rw [line_cons hfeed] at h ⊢
    obtain ⟨body, tail, hline, htail⟩ :=
      ih hopen ((List.mem_cons.mp h).resolve_left (Ne.symm hquote))
    exact ⟨c :: body, tail, by simp [hline], htail⟩

/-- A quote that no other one follows on the line closes the literal if it stands at the front. -/
theorem closes_of_lone_quote (hline : line rest = '\'' :: tail) (htail : '\'' ∉ tail) :
    closes rest = true := by
  cases rest with
  | nil => cases hline
  | cons c others =>
    have hfeed : c ≠ '\n' := by
      rintro rfl
      cases hline
    rw [line_cons hfeed] at hline
    obtain ⟨rfl, rfl⟩ := List.cons.inj hline
    cases others with
    | nil => rfl
    | cons d others =>
      have hd : d ≠ '\'' := by
        rintro rfl
        rw [line_cons (by decide)] at htail
        exact htail List.mem_cons_self
      simp [closes, hd]

/-- A literal that is not closed ends at the first quote of the last pair on its line. -/
theorem body?_of_last_pair (hopen : closes rest = false)
    (hline : line rest = body ++ '\'' :: '\'' :: tail) (htail : '\'' ∉ tail) :
    body? rest = some body := by
  fun_induction closes rest generalizing body with
  | case1 => cases body <;> cases hline
  | case2 c =>
    have hlength := congrArg List.length hline
    have hshort : (line [c]).length ≤ 1 := (List.takeWhile_prefix _).length_le
    simp only [List.length_append, List.length_cons] at hlength
    omega
  | case3 rest ih =>
    have hfeed : '\'' ≠ '\n' := by decide
    rw [line_cons hfeed, line_cons hfeed] at hline
    cases body with
    | nil =>
      obtain rfl : line rest = tail := by simpa using hline
      simp [body?, body?_eq_none htail]
    | cons x others =>
      cases others with
      | nil =>
        -- the quote behind the pair would close the literal
        have hrest : line rest = '\'' :: tail := by simpa using (List.cons.inj hline).2
        rw [closes_of_lone_quote hrest htail] at hopen
        cases hopen
      | cons y inner =>
        obtain ⟨rfl, rfl, hrest⟩ :
            x = '\'' ∧ y = '\'' ∧ line rest = inner ++ '\'' :: '\'' :: tail := by
          simpa [eq_comm] using hline
        simp [body?, ih hopen hrest]
  | case4 => cases hopen
  | case5 => cases body <;> cases hline
  | case6 c d rest hquote hfeed ih =>
    rw [line_cons hfeed] at hline
    cases body with
    | nil => exact absurd (List.cons.inj hline).1 hquote
    | cons x inner =>
      obtain ⟨rfl, hrest⟩ := List.cons.inj hline
      rw [body?_cons hquote hfeed, ih hopen hrest, Option.map_some]

end Literal

end Text

namespace Lexer

/-- What is wrong with a literal when it ends at the first quote of a pair: a character in front of
the pair, or else the second quote, which opens a literal that is left open. -/
def Piece.torn (body : List Char) : Failure :=
  match body.dropWhile Literal.isAllowed with
  | [] => ⟨.unterminatedString, '\'' :: body ++ ['\'']⟩
  | c :: _ => ⟨.invalidStringCharacter c, '\'' :: body.takeWhile Literal.isAllowed⟩

/-- What is wrong lies behind the opening quote and in front of the end of the pair. -/
theorem Piece.torn_before (body : List Char) : ∃ front others,
    (torn body).before = '\'' :: front ∧ body ++ ['\''] = front ++ others := by
  unfold torn
  split
  · exact ⟨body ++ ['\''], [], rfl, by simp⟩
  · exact ⟨body.takeWhile Literal.isAllowed, body.dropWhile Literal.isAllowed ++ ['\''], rfl,
      by rw [← List.append_assoc, List.takeWhile_append_dropWhile]⟩

/-- Pieces of a text each of which stands in front of all that follows it, up to a rest that has yet
to be read. -/
inductive Leads : List Piece → List Char → Prop where
  | nil {behind : List Char} : Leads [] behind
  | cons {piece : Piece} {pieces : List Piece} {behind : List Char}
      (h : piece.Stands (textOf pieces ++ behind)) (hrest : Leads pieces behind) :
      Leads (piece :: pieces) behind

section

variable {fuel : Nat} {place : Position} {pieces : List Piece}
  {behind rest body front back : List Char} {c : Char} {diagnostic : Diagnostic}

/-- Pieces have at least one character each. -/
theorem Leads.length_le (h : Leads pieces behind) : pieces.length ≤ (textOf pieces).length := by
  induction h with
  | nil => exact Nat.zero_le _
  | @cons piece pieces behind hstands _ ih =>
    have hpos := List.length_pos_iff.mpr hstands.text_ne_nil
    rw [textOf_cons, List.length_append, List.length_cons]
    omega

/-- A text that is refused is refused for the same fault behind pieces that lead to it. -/
theorem Leads.refuses (h : Leads pieces behind)
    (hrefused : tokensWithin fuel (place.past (textOf pieces)) behind = .error diagnostic) :
    tokensWithin (fuel + pieces.length) place (textOf pieces ++ behind) = .error diagnostic := by
  induction h generalizing place with
  | nil => exact hrefused
  | @cons piece pieces behind hstands _ ih =>
    rw [textOf_cons, Position.past_append] at hrefused
    rw [textOf_cons, List.append_assoc]
    obtain ⟨c, others, hcons⟩ :=
      List.exists_cons_of_ne_nil (List.append_ne_nil_of_left_ne_nil hstands.text_ne_nil _)
    have hdrop : (c :: others).drop piece.text.length = textOf pieces ++ behind := by
      rw [← hcons, List.drop_left]
    rw [List.length_cons, ← Nat.add_assoc, hcons,
      tokensWithin_of_ok (Piece.first_of_stands hstands hcons), hdrop, ih hrefused, Except.map]

/-- What is wrong with the text behind pieces that lead to it is what is wrong with the source. -/
theorem Leads.tokenize_eq {file source : String} (h : Leads pieces behind)
    (hsource : source.toList = textOf pieces ++ behind)
    (hrefused : ∀ fuel, behind.length ≤ fuel →
      tokensWithin fuel ((Position.origin file).past (textOf pieces)) behind = .error diagnostic) :
    tokenize file source = .error diagnostic := by
  have hshort := h.length_le
  obtain ⟨fuel, hfuel⟩ : ∃ fuel, source.toList.length = fuel + pieces.length :=
    ⟨source.toList.length - pieces.length, by
      rw [hsource, List.length_append]; omega⟩
  have hlong : behind.length ≤ fuel := by
    rw [hsource, List.length_append] at hfuel
    omega
  rw [tokenize, hfuel, hsource]
  exact h.refuses (hrefused fuel hlong)

/-- A literal is read behind an opening quote. -/
theorem first_quote (rest : List Char) : Piece.first '\'' rest = Piece.literal rest := by
  rw [Piece.first, if_neg (by decide), if_neg (by decide), if_pos rfl]

/-- A literal that ends nowhere is a fault at its opening quote. -/
theorem literal_of_none (h : Literal.body? rest = none) :
    Piece.literal rest = .error ⟨.unterminatedString, []⟩ := by
  rw [Piece.literal, h]

/-- A literal that ends at a quote has the characters in front of the quote, unless it may not hold
one of them. -/
theorem literal_of_body (h : Literal.body? rest = some body) :
    Piece.literal rest = match body.dropWhile Literal.isAllowed with
      | [] => .ok (.lexeme ('\'' :: body ++ ['\'']) .string (String.ofList (Literal.halve body)))
      | c :: _ => .error ⟨.invalidStringCharacter c, '\'' :: body.takeWhile Literal.isAllowed⟩ := by
  cases hrefused : body.dropWhile Literal.isAllowed <;> simp only [Piece.literal, h, hrefused]

/-- A fault of the literal behind an opening quote refuses the text from the quote on. -/
theorem tokensWithin_of_literal {failure : Piece.Failure} (h : Piece.literal rest = .error failure)
    (hfuel : ('\'' :: rest).length ≤ fuel) :
    tokensWithin fuel place ('\'' :: rest) = .error ⟨failure.fault, place.past failure.before⟩ := by
  rw [List.length_cons] at hfuel
  obtain ⟨fewer, rfl⟩ : ∃ fewer, fuel = fewer + 1 := ⟨fuel - 1, by omega⟩
  exact tokensWithin_of_error (first_quote rest ▸ h)

/-- When the last pair of quotes of a line is torn apart, the text is refused for a character in
front of the pair or for the second quote. -/
theorem tokensWithin_of_torn (hbody : Literal.body? (body ++ '\'' :: '\'' :: rest) = some body)
    (hrest : Literal.body? rest = none)
    (hfuel : ('\'' :: (body ++ '\'' :: '\'' :: rest)).length ≤ fuel) :
    tokensWithin fuel place ('\'' :: (body ++ '\'' :: '\'' :: rest)) =
      .error ⟨(Piece.torn body).fault, place.past (Piece.torn body).before⟩ := by
  have hliteral := literal_of_body hbody
  unfold Piece.torn
  cases hrefused : body.dropWhile Literal.isAllowed with
  | cons c others =>
    rw [hrefused] at hliteral
    exact tokensWithin_of_literal hliteral hfuel
  | nil =>
    rw [hrefused, ← first_quote] at hliteral
    have hsplit : '\'' :: (body ++ '\'' :: '\'' :: rest) =
        ('\'' :: body ++ ['\'']) ++ '\'' :: rest := by simp
    have hdrop := congrArg (List.drop ('\'' :: body ++ ['\'']).length) hsplit
    rw [List.drop_left] at hdrop
    rw [List.length_cons, List.length_append, List.length_cons] at hfuel
    obtain ⟨fewer, rfl⟩ : ∃ fewer, fuel = fewer + 1 := ⟨fuel - 1, by omega⟩
    have hbehind : tokensWithin fewer (place.past ('\'' :: body ++ ['\''])) ('\'' :: rest) = _ :=
      tokensWithin_of_literal (literal_of_none hrest) (by omega)
    rw [tokensWithin_of_ok hliteral, Piece.text, hdrop, hbehind]
    rfl

end

end Lexer

section

variable {file source : String} {pieces : List Lexer.Piece} {rest body tail : List Char}

open Lexer

/-- Pieces lead to a literal that is left open on a line that has further quotes: what is reported
is what becomes of the literal when the last pair of quotes is torn apart. -/
theorem tokenize_of_last_pair (file : String)
    (hsource : source.toList = textOf pieces ++ '\'' :: rest)
    (hleads : Leads pieces ('\'' :: rest)) (hopen : Literal.closes rest = false)
    (hline : Literal.line rest = body ++ '\'' :: '\'' :: tail) (htail : '\'' ∉ tail) :
    tokenize file source = .error ⟨(Piece.torn body).fault,
      (Position.origin file).past (textOf pieces ++ (Piece.torn body).before)⟩ := by
  have hbody := Literal.body?_of_last_pair hopen hline htail
  have hline' : Literal.line rest = (body ++ ['\'', '\'']) ++ tail := by simpa using hline
  obtain ⟨behind, rfl, hbehind⟩ := Literal.exists_behind hline'
  have hnone := Literal.body?_eq_none (hbehind.symm ▸ htail)
  simp only [List.append_assoc, List.cons_append, List.nil_append] at hsource hbody hleads
  rw [Position.past_append]
  exact hleads.tokenize_eq hsource fun _ hfuel => tokensWithin_of_torn hbody hnone hfuel

/-- Scanning that first meets a literal left open, the one behind the pieces in front of it, reports
the literal where it opens exactly if no further quote stands on its line. If one does, the quotes
of the line stand in pairs, the last pair is torn apart, and what is reported is what becomes of the
literal then: a later literal that is left open, or a character that no literal may hold. -/
theorem unterminated_at_opening_iff (hsource : source.toList = textOf pieces ++ '\'' :: rest)
    (hleads : Leads pieces ('\'' :: rest)) (hopen : Literal.closes rest = false) :
    (tokenize file source = .error ⟨.unterminatedString,
        locate file source.toList (byteLength (textOf pieces))⟩ ↔ '\'' ∉ Literal.line rest) ∧
      ('\'' ∈ Literal.line rest → ∃ body tail,
        Literal.line rest = body ++ '\'' :: '\'' :: tail ∧ '\'' ∉ tail ∧
          tokenize file source = .error ⟨(Piece.torn body).fault, locate file source.toList
            (byteLength (textOf pieces ++ (Piece.torn body).before))⟩) := by
  have hplace : ∀ text others, source.toList = text ++ others →
      locate file source.toList (byteLength text) = (Position.origin file).past text :=
    fun text others he => he ▸ locate_byteLength file text others
  rw [hplace _ _ hsource]
  refine ⟨⟨fun herror hquote => ?_, fun hquote => ?_⟩, fun hquote => ?_⟩
  · -- What is torn apart is reported in a later column of the line.
    obtain ⟨body, tail, hline, htail⟩ := Literal.exists_last_pair hopen hquote
    have htorn := tokenize_of_last_pair file hsource hleads hopen hline htail
    obtain ⟨front, others, hbefore, hpair⟩ := Piece.torn_before body
    have hfeed : '\n' ∉ '\'' :: front := by
      intro hm
      have hpaired : '\n' ∈ body ++ ['\''] :=
        hpair ▸ List.mem_append_left others ((List.mem_cons.mp hm).resolve_left (by decide))
      have hbody : '\n' ∈ body := by simpa using hpaired
      exact Literal.feed_notMem_line rest (hline ▸ List.mem_append_left _ hbody)
    rw [herror, Except.error.injEq, Diagnostic.mk.injEq, Position.past_append, hbefore] at htorn
    have hcolumn := congrArg Position.column htorn.2
    rw [Position.column_past _ hfeed, List.length_cons] at hcolumn
    omega
  · exact hleads.tokenize_eq hsource fun _ hfuel =>
      tokensWithin_of_literal (literal_of_none (Literal.body?_eq_none hquote)) hfuel
  · obtain ⟨body, tail, hline, htail⟩ := Literal.exists_last_pair hopen hquote
    have htorn := tokenize_of_last_pair file hsource hleads hopen hline htail
    obtain ⟨front, others, hbefore, hpair⟩ := Piece.torn_before body
    obtain ⟨behind, hrest, _⟩ := Literal.exists_behind hline
    have hsplit : source.toList = (textOf pieces ++ (Piece.torn body).before) ++
        (others ++ '\'' :: (tail ++ behind)) := by
      have hfront : source.toList =
          textOf pieces ++ ('\'' :: (body ++ ['\''])) ++ '\'' :: (tail ++ behind) := by
        simp [hsource, hrest]
      rw [hfront, hpair, hbefore]
      simp
    exact ⟨body, tail, hline, htail, hplace _ _ hsplit ▸ htorn⟩

/-- A literal with a doubled quote is followed by one that is left open. -/
theorem unterminated_in_second_literal :
    ∃ body tail, Literal.line "a''b".toList = body ++ '\'' :: '\'' :: tail ∧ '\'' ∉ tail ∧
      tokenize "shell" "'it''s' 'a''b" = .error ⟨(Piece.torn body).fault,
        locate "shell" "'it''s' 'a''b".toList
          (byteLength (textOf [.lexeme "'it''s'".toList .string "it's",
            .skipped [' ']] ++ (Piece.torn body).before))⟩ := by
  have hblank : (Piece.skipped [' ']).Stands "'a''b".toList :=
    .blanks (List.cons_ne_nil _ _) ⟨List.forall_mem_singleton.mpr (by decide), by simp [isBlank]⟩
  have hliteral : (Piece.lexeme "'it''s'".toList .string "it's").Stands " 'a''b".toList :=
    @Piece.Stands.string "it's".toList " 'a''b".toList (List.all_eq_true.mp (by decide)) (by simp)
  exact (unterminated_at_opening_iff (by decide)
    (.cons hliteral (.cons hblank .nil)) (by decide)).2 (by decide)

/-- A literal that is left open behind two quotes in a row is reported at the second one. -/
theorem torn_pair_is_reported : Literal.closes "a''".toList = false ∧
    tokenize "shell" "'a''" = .error ⟨.unterminatedString, ⟨1, 4, "shell"⟩⟩ ∧
    tokenize "shell" "'a''" ≠ .error ⟨.unterminatedString, ⟨1, 1, "shell"⟩⟩ := by
  decide +kernel

end

end Pins
