import Pins.Proofs.BoundAlike
import Pins.Proofs.Cut
import Pins.Proofs.LaidOutAlike
import Pins.Proofs.Progress
import Pins.Proofs.Stretches
import Pins.Proofs.TypedAlike

/-!
# Where diagnostics point

A diagnostic points into its source: at a place between two of its characters or at one of its ends,
in a line that it has (`Compilation.diagnostic_isPlace`). Cutting a text stops at a place it has
walked to; reading stops where a token begins; and the passes over the arena stop where a node
begins, which is where a token begins too. That a pass points at nodes is seen by comparing it with
itself: a run follows itself, and whatever stops it is blamed on a node.
-/

namespace Pins

open Text

namespace Lexer

variable {fuel : Nat} {c : Char} {rest source text : List Char} {file : String}
  {failure : Piece.Failure} {diagnostic : Diagnostic} {pieces : List Piece}

/-- What stands before the place of a fault is the front of the text. -/
theorem before_prefix (h : Piece.first c rest = .error failure) :
    failure.before <+: c :: rest := by
  unfold Piece.first at h
  split at h
  · cases h
  split at h
  · cases h
  split at h
  · next hquote =>
    subst hquote
    unfold Piece.literal at h
    cases hbody : Literal.body? rest with
    | none =>
      rw [hbody] at h
      cases h
      exact List.nil_prefix
    | some body =>
      obtain ⟨value, behind, rfl, rfl, _⟩ := Literal.body?_eq_some hbody
      rw [hbody] at h
      dsimp only at h
      split at h <;> cases h
      exact List.cons_prefix_cons.mpr
        ⟨rfl, (List.takeWhile_prefix _).trans (List.prefix_append _ _)⟩
  split at h
  · unfold Piece.number at h
    dsimp only at h
    split at h
    · cases h
    · split at h <;> cases h
      exact List.nil_prefix
  split at h
  · cases h
  · split at h <;> cases h
    exact List.nil_prefix

/-- Cutting a text stops at one of its places. -/
theorem isPlace_of_tokensWithin (front : List Char)
    (h : tokensWithin fuel ((Position.origin file).past front) text = .error diagnostic) :
    IsPlace file (front ++ text) diagnostic.position := by
  induction fuel generalizing front text with
  | zero =>
    cases text with
    | nil => cases h
    | cons c rest =>
      cases h
      exact isPlace_past file front _
  | succ fuel ih =>
    cases text with
    | nil => cases h
    | cons c rest =>
      obtain ⟨failure, hpiece, rfl⟩ | ⟨piece, hpiece, hrest⟩ := tokensWithin_eq_error h
      · obtain ⟨behind, hbehind⟩ := before_prefix hpiece
        rw [← hbehind, ← List.append_assoc, ← Position.past_append]
        exact isPlace_past file _ behind
      · obtain ⟨behind, hsplit, _⟩ := Piece.fronts_of_first hpiece
        rw [hsplit, List.drop_left, ← Position.past_append] at hrest
        rw [hsplit, ← List.append_assoc]
        exact ih _ hrest

/-- The tokens of pieces begin at places of the source. -/
theorem isPlace_of_mem_lexemes (front : List Char) (hsource : source = front ++ textOf pieces) :
    ∀ token ∈ lexemes file source (byteLength front) pieces,
      IsPlace file source token.span.start := by
  induction pieces generalizing front with
  | nil => exact fun _ hmem => absurd hmem List.not_mem_nil
  | cons piece pieces ih =>
    have hrest := ih (front ++ piece.text)
      (by rw [hsource, textOf_cons, List.append_assoc])
    rw [byteLength_append] at hrest
    cases piece with
    | skipped text => exact hrest
    | lexeme text kind value =>
      exact List.forall_mem_cons.mpr ⟨⟨_, ⟨front, _, hsource, rfl⟩, rfl⟩, hrest⟩

end Lexer

/-- The tokens of a source begin at its places. -/
theorem isPlace_of_begins {file source : String} {tokens : List Token} {place : Position}
    (ht : tokenize file source = .ok tokens) (h : Begins tokens place) :
    IsPlace file source.toList place := by
  obtain ⟨pieces, htext, _, rfl⟩ := Lexer.exists_cut_of_tokenize ht
  obtain ⟨token, hmem, rfl⟩ := h
  rcases List.mem_append.mp hmem with hlexeme | hend
  · exact Lexer.isPlace_of_mem_lexemes [] htext.symm token hlexeme
  · obtain rfl := List.mem_singleton.mp hend
    exact ⟨_, ⟨source.toList, [], (List.append_nil _).symm, rfl⟩, rfl⟩

section Passes

variable {arena : Arena} {bindings : NodeTable NodeId} {types : NodeTable Ty}
  {labels : LabelSupply} {diagnostic : Diagnostic}

/-- A diagnostic points at the beginning of a node. -/
def Arena.Points (arena : Arena) (diagnostic : Diagnostic) : Prop :=
  ∃ id : NodeId, id.index < arena.size ∧ diagnostic.position = arena.position id

/-- As far as some states, a pass over an arena that stops is to point at a node. -/
abbrev Arena.pointing {σ : Type} (arena : Arena) (within : σ → Prop) : Pass.Comparison σ where
  within := within
  excuses _ := False
  blames _ found := arena.Points found

/-- An arena is like itself, and a fault of one of its nodes is reported at a node. -/
theorem Arena.IsTree.alike_self {σ : Type} (ht : arena.IsTree) (within : σ → Prop) :
    Alike (arena.pointing within) arena.word arena arena fun id => id.index < arena.size :=
  ht.alike (Nat.le_refl _) (fun _ _ => rfl) fun id _ hid => ⟨id, hid, rfl⟩

/-- What stops a pass that follows itself points at a node. -/
theorem Pass.Follows.points {σ α β : Type} {before after : σ → σ → Prop} {within : σ → Prop}
    {see : α → α} {step : Pass σ α} {state : σ} {keep : σ → β}
    (h : Follows (arena.pointing within) before after see step step) (hb : before state state)
    (hw : within (reached (step state)))
    (hf : (Pass.finalState step state).map keep = .error diagnostic) :
    arena.Points diagnostic := by
  obtain ⟨_, herror⟩ := h.finalState hb hw
  cases hstate : Pass.finalState step state with
  | ok middle =>
    rw [hstate] at hf
    cases hf
  | error found =>
    rw [hstate] at hf
    cases hf
    obtain ⟨again, hagain, hpoints⟩ := (herror diagnostic hstate).resolve_left id
    cases hagain.symm.trans hstate
    exact hpoints

/-- Binding points at nodes. -/
theorem Binding.points_of_ofArena (ht : arena.IsTree) (h : ofArena arena = .error diagnostic) :
    arena.Points diagnostic := by
  have ⟨root, hroot, hsize, _⟩ := ht
  have hfollows := visitWithin_follows (ht.alike_self fun _ => True)
    (fun hx => (hx ⟨.internalError "", .origin ""⟩).elim) (fun _ _ => trivial) arena.depthBound
    (Nat.lt_of_succ_le (Nat.le_of_eq hsize))
  simp only [ofArena, hroot, visit] at h
  exact hfollows.points .initial trivial h

/-- Typing points at nodes. -/
theorem Typing.points_of_ofArena (ht : arena.IsTree) (hbound : Binding.Bound arena bindings)
    (h : ofArena arena bindings = .error diagnostic) : arena.Points diagnostic := by
  have ⟨root, hroot, hsize, _⟩ := ht
  have hfollows := (checks_same (ht.alike_self fun _ => True) (fun _ => trivial)
    hbound.index_lt (.refl arena.depthBound)).2 root (Nat.lt_of_succ_le (Nat.le_of_eq hsize))
  simp only [ofArena, hroot, check] at h
  exact hfollows.points rfl trivial h

/-- Layout points at nodes. -/
theorem Layout.points_of_ofArena (ht : arena.IsTree)
    (h : ofArena arena bindings types labels = .error diagnostic) : arena.Points diagnostic := by
  have ⟨root, hroot, hsize, _⟩ := ht
  let limit : Nat := (Pass.reached (visit arena bindings types root (.initial labels))).labels.next
  let p : Pairing := .same (fun id => id.index < arena.size) (fun _ => True) limit
  have hfollows : p.Same (arena.pointing fun state => state.labels.next ≤ limit) 0
      (fun value => value) (visitWithin arena bindings types arena.depthBound root)
      (visitWithin arena bindings types arena.depthBound root) :=
    visitProgram_same (fun _ => Iff.rfl) (ht.alike_self _) ht hroot
      (Nat.lt_of_succ_le (Nat.le_of_eq hsize)) arena.depthBound
  simp only [ofArena, hroot, visit] at h
  exact hfollows.points (Pairing.related_initial _ _ _ labels) (Nat.le_refl _) h

end Passes

namespace Compilation

/-- The passes over a program that was read point at its nodes. -/
theorem points_of_ofArena {arena : Arena} {diagnostic : Diagnostic} (ht : arena.IsTree)
    (h : ofArena arena = .error diagnostic) : arena.Points diagnostic := by
  rcases ofArena_eq_error h with
    hb | ⟨bindings, hb, hty | ⟨types, hty, hl | ⟨layout, labels, hl, hp⟩⟩⟩
  · exact Binding.points_of_ofArena ht hb
  · exact Typing.points_of_ofArena ht (Binding.ofArena_bound ht hb) hty
  · exact Layout.points_of_ofArena ht hl
  · obtain ⟨_, _, hok, _⟩ := Lowering.ofProgram_lowered labels (prepared ht hb hty hl)
    cases hok.symm.trans hp

/-- Whatever phase refuses a source, its diagnostic lies at a boundary between characters of the
source, in the named file, and in a line that the source has. -/
theorem diagnostic_isPlace {file source : String} {diagnostic : Diagnostic}
    (h : ofSource file source = .error diagnostic) :
    (∃ offset, IsBoundary source.toList offset ∧ offset ≤ byteLength source.toList ∧
      diagnostic.position = locate file source.toList offset) ∧
    diagnostic.position.file = file ∧
    (line? source.toList diagnostic.position.line).isSome := by
  have hplace : IsPlace file source.toList diagnostic.position := by
    rcases ofSource_eq_error h with ht | ⟨tokens, ht, hp | ⟨arena, hp, ha⟩⟩
    · exact Lexer.isPlace_of_tokensWithin [] ht
    · exact isPlace_of_begins ht (begins_of_parse (lexed_of_tokenize ht) hp)
    · obtain ⟨id, hid, hposition⟩ := points_of_ofArena (parse_isTree hp) ha
      rw [hposition]
      have hspans := spans_of_parse (lexed_of_tokenize ht) (inOrder_of_tokenize ht) hp
      exact isPlace_of_begins ht (hspans.begins hid)
  have ⟨offset, hboundary, hoffset⟩ := hplace
  exact ⟨⟨offset, hboundary, hboundary.le, hoffset⟩, hplace.file_eq, hplace.isSome_line?⟩

/-- An unknown name behind characters of more than one byte. -/
theorem diagnostic_isPlace_of_unknown_name : ∃ diagnostic,
    ofSource "notes" "# é…\nvar x: unknown" = .error diagnostic ∧
    (∃ offset, IsBoundary "# é…\nvar x: unknown".toList offset ∧
      offset ≤ byteLength "# é…\nvar x: unknown".toList ∧
      diagnostic.position = locate "notes" "# é…\nvar x: unknown".toList offset) ∧
    diagnostic.position.file = "notes" ∧
    (line? "# é…\nvar x: unknown".toList diagnostic.position.line).isSome := by
  have herror : (ofSource "notes" "# é…\nvar x: unknown").isOk = false := by decide +kernel
  generalize "# é…\nvar x: unknown" = source at herror ⊢
  cases h : ofSource "notes" source with
  | ok compiled => simp [h, Except.isOk, Except.toBool] at herror
  | error diagnostic => exact ⟨diagnostic, rfl, diagnostic_isPlace h⟩

end Compilation

end Pins
