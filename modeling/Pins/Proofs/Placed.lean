import Pins.Layout
import Pins.Proofs.Enclosing
import Pins.Proofs.Sweep

/-!
# Values in frames

A value in a frame takes the bytes from its offset on, counted from the frame pointer. What stands
directly in a function is kept in the frame of the function, at its level, and no two values of one
frame have a byte in common (`Framed`). Laying out goes through a program in intervals; `Placed` is
the same for an interval, and is put together from neighbouring intervals whose values lie in
different parts of the frame.
-/

namespace Pins

namespace Access

/-- Where the bytes of a value in a frame begin and end, counted from the frame pointer. -/
def span? : Access → Option (Int × Int)
  | global .. => none
  | inFrame size offset _ | parameter size offset _ => some (offset, offset + size)

/-- No byte of a frame belongs to two values. -/
def Apart (access other : Access) : Prop :=
  ∀ span span', access.span? = some span → other.span? = some span' →
    span.2 ≤ span'.1 ∨ span'.2 ≤ span.1

theorem Apart.symm {access other : Access} (h : access.Apart other) : other.Apart access :=
  fun span span' hs hs' => (h span' span hs' hs).symm

end Access

/-- A value lies among the arguments behind the static link or among the locals of a frame. -/
def Frame.Holds (frame : Frame) : Access → Prop
  | .global .. => False
  | .inFrame size offset level =>
    level = frame.level ∧ -(frame.localsSize : Int) ≤ offset ∧ offset + size ≤ 0
  | .parameter size offset level =>
    level = frame.level ∧ (wordSize : Int) ≤ offset ∧ offset + size ≤ frame.parametersSize

namespace Layout

variable {arena : Arena} {id : NodeId} {first middle last : Nat} {outer : Option NodeId}
  {layout : Layout} {fits fits' : Access → Prop} {access : Access}

/-- A node of an interval that stands directly in a function keeps its value at an access. -/
def KeptIn (arena : Arena) (outer : Option NodeId) (first last : Nat) (layout : Layout)
    (id : NodeId) (access : Access) : Prop :=
  first ≤ id.index ∧ id.index < last ∧ arena.Encloses outer id ∧
    layout.accesses.get? id = some access

/-- The values of an interval that stand directly in a function lie where they fit, apart from each
other. -/
structure Placed (arena : Arena) (outer : Option NodeId) (first last : Nat) (fits : Access → Prop)
    (layout : Layout) : Prop where
  /-- Every access fits. -/
  slot : ∀ {id access}, KeptIn arena outer first last layout id access → fits access
  /-- No two values have a byte in common. -/
  apart : ∀ {id other access access'}, KeptIn arena outer first last layout id access →
    KeptIn arena outer first last layout other access' → id ≠ other → access.Apart access'

namespace Placed

/-- Where nothing is kept, nothing is placed wrongly. -/
theorem unset (h : layout.accesses.Unset first last) :
    Placed arena outer first last fits layout := by
  have hnone : ∀ {id access}, ¬KeptIn arena outer first last layout id access := by
    rintro id access ⟨hf, hl, _, ha⟩
    cases (h id hf hl).symm.trans ha
  exact ⟨fun h => absurd h hnone, fun h => absurd h hnone⟩

/-- A single value is apart from all others. -/
theorem single (ha : layout.accesses.get? id = some access) (hfits : fits access) :
    Placed arena outer id.index (id.index + 1) fits layout := by
  have hsame : ∀ {other found}, KeptIn arena outer id.index (id.index + 1) layout other found →
      other = id ∧ found = access := by
    rintro other found ⟨hf, hl, _, hfound⟩
    obtain rfl : other = id := NodeId.eq_of_index (by omega)
    exact ⟨rfl, Option.some.inj (hfound.symm.trans ha)⟩
  refine ⟨fun h => (hsame h).2 ▸ hfits, fun h h' hn => ?_⟩
  exact absurd ((hsame h).1.trans (hsame h').1.symm) hn

/-- Where the accesses are the same, values are placed the same. -/
theorem congr {layout' : Layout} (h : Placed arena outer first last fits layout)
    (hs : ∀ id : NodeId, first ≤ id.index → id.index < last → arena.Encloses outer id →
      layout'.accesses.get? id = layout.accesses.get? id) :
    Placed arena outer first last fits layout' := by
  have hkept : ∀ {id access}, KeptIn arena outer first last layout' id access →
      KeptIn arena outer first last layout id access := by
    rintro id access ⟨hf, hl, he, ha⟩
    exact ⟨hf, hl, he, (hs id hf hl he).symm.trans ha⟩
  exact ⟨fun h' => h.slot (hkept h'), fun h' h'' hn => h.apart (hkept h') (hkept h'') hn⟩

/-- Accesses that fit may be said to fit in a weaker sense. -/
theorem mono (h : Placed arena outer first last fits layout)
    (hw : ∀ access, fits access → fits' access) : Placed arena outer first last fits' layout :=
  ⟨fun hk => hw _ (h.slot hk), h.apart⟩

/-- The values of two neighbouring intervals are placed if those of one are apart from those of
the other. -/
theorem append (hf : Placed arena outer first middle fits layout)
    (hs : Placed arena outer middle last fits' layout)
    (ha : ∀ access access', fits access → fits' access' → access.Apart access') :
    Placed arena outer first last (fun access => fits access ∨ fits' access) layout := by
  have hsplit : ∀ {id access}, KeptIn arena outer first last layout id access →
      KeptIn arena outer first middle layout id access ∨
        KeptIn arena outer middle last layout id access := by
    rintro id access ⟨hfirst, hlast, he, hg⟩
    rcases Nat.lt_or_ge id.index middle with hlt | hge
    · exact .inl ⟨hfirst, hlt, he, hg⟩
    · exact .inr ⟨hge, hlast, he, hg⟩
  constructor
  · intro id access hk
    exact (hsplit hk).imp hf.slot hs.slot
  · intro id other access access' hk hk' hn
    rcases hsplit hk with hk | hk <;> rcases hsplit hk' with hk' | hk'
    · exact hf.apart hk hk' hn
    · exact ha _ _ (hf.slot hk) (hs.slot hk')
    · exact (ha _ _ (hf.slot hk') (hs.slot hk)).symm
    · exact hs.apart hk hk' hn

/-- An interval in which nothing is kept may be added behind. -/
theorem append_unset (h : Placed arena outer first middle fits layout)
    (hu : layout.accesses.Unset middle last) : Placed arena outer first last fits layout :=
  have hnone : Placed arena outer middle last (fun _ => False) layout := .unset hu
  (h.append hnone fun _ _ _ h => h.elim).mono fun _ h => h.resolve_right id

/-- An interval in which nothing is kept may be added in front. -/
theorem unset_append (hu : layout.accesses.Unset first middle)
    (h : Placed arena outer middle last fits layout) : Placed arena outer first last fits layout :=
  have hnone : Placed arena outer first middle (fun _ => False) layout := .unset hu
  (hnone.append h fun _ _ h => h.elim).mono fun _ h => h.resolve_left id

end Placed

/-- A function has its level, its frame can be addressed, and what stands directly in the function
is kept in the frame. -/
structure Framed (arena : Arena) (layout : Layout) (id : NodeId) (frame : Frame) : Prop where
  /-- The level is the number of functions around the body. -/
  level : arena.Level (some id) frame.level
  /-- The locals and the two words below them can be addressed. -/
  locals : frame.localsSize + 2 * wordSize ≤ maxObjectSize
  /-- The static link is one of the arguments. -/
  link : wordSize ≤ frame.parametersSize
  /-- The arguments can be addressed. -/
  parameters : frame.parametersSize ≤ maxObjectSize
  /-- The values that stand in the function lie in the frame. -/
  placed : Placed arena (some id) 0 id.index frame.Holds layout

/-- A function is framed as long as the accesses in it are the same. -/
theorem Framed.congr {layout' : Layout} {frame : Frame} (h : Framed arena layout id frame)
    (hs : ∀ node : NodeId, node.index < id.index → arena.Encloses (some id) node →
      layout'.accesses.get? node = layout.accesses.get? node) : Framed arena layout' id frame :=
  { h with placed := h.placed.congr fun node _ hl he => hs node hl he }

/-- A value is kept under a label outside all functions, and at level `level` among the locals from
`low` to `high`. -/
def Between (level low high : Nat) : Access → Prop
  | .global .. => level = 0
  | .inFrame size offset target =>
    0 < level ∧ target = level ∧ -(high : Int) ≤ offset ∧ offset + size ≤ -(low : Int)
  | .parameter .. => False

/-- A value is kept among the arguments from `low` to `high`. -/
def Arrives (level low high : Nat) : Access → Prop
  | .parameter size offset target =>
    target = level ∧ (low : Int) ≤ offset ∧ offset + size ≤ (high : Int)
  | _ => False

/-- The locals that a value lies among may be taken to be more. -/
theorem Between.mono {level low low' high high' : Nat} (h : Between level low high access)
    (hl : low' ≤ low) (hh : high ≤ high') : Between level low' high' access := by
  cases access with
  | global | parameter => exact h
  | inFrame =>
    obtain ⟨hp, ht, hlow, hhigh⟩ := h
    exact ⟨hp, ht, by omega, by omega⟩

/-- The arguments that a value lies among may be taken to be more. -/
theorem Arrives.mono {level low low' high high' : Nat} (h : Arrives level low high access)
    (hl : low' ≤ low) (hh : high ≤ high') : Arrives level low' high' access := by
  cases access with
  | global | inFrame => exact h
  | parameter =>
    obtain ⟨ht, hlow, hhigh⟩ := h
    exact ⟨ht, by omega, by omega⟩

/-- Locals below others are apart from these. -/
theorem Between.apart {level level' low middle high : Nat} {access access' : Access}
    (h : Between level low middle access) (h' : Between level' middle high access') :
    access.Apart access' := by
  intro span span' hs hs'
  cases access <;> cases access' <;> simp only [Access.span?, Option.some.injEq, reduceCtorEq,
    Between] at hs hs' h h'
  subst hs hs'
  exact .inr (by dsimp only; omega)

/-- Arguments behind others are apart from these. -/
theorem Arrives.apart {level level' low middle high : Nat} {access access' : Access}
    (h : Arrives level low middle access) (h' : Arrives level' middle high access') :
    access.Apart access' := by
  intro span span' hs hs'
  cases access <;> cases access' <;> simp only [Access.span?, Option.some.injEq, reduceCtorEq,
    Arrives] at hs hs' h h'
  subst hs hs'
  exact .inl (by dsimp only; omega)

/-- Arguments are apart from locals. -/
theorem Arrives.apart_between {level level' low low' high high' : Nat} {access access' : Access}
    (h : Arrives level low high access) (h' : Between level' low' high' access') :
    access.Apart access' := by
  intro span span' hs hs'
  cases access <;> cases access' <;> simp only [Access.span?, Option.some.injEq, reduceCtorEq,
    Arrives, Between] at hs hs' h h'
  subst hs hs'
  exact .inr (by dsimp only; omega)

end Layout

end Pins
