import Pins.Proofs.Simulation

/-!
# Functions mean what their bodies mean

A function without calls, strings and arrays uses its parameters and locals and the top-level
variables only. Its code ends if and only if its body has a value; it leaves this value as its
result, and its variables as evaluation leaves them (`Compilation.preserves_meaning`). The bytes of
a variable belong to no other variable and not to the result, so nothing is lost between stores and
memory.
-/

namespace Pins

open Ir (Computes Executes Memory)

namespace Site

/-- The code of a function does what its body means, with the result at the frame pointer. -/
structure Implements (site : Site) (body : NodeId) (code : Ir.Stmt) : Prop where
  /-- No byte of the frame belongs to two variables. -/
  apart : ∀ {cell other : Cell site.Scope} {access access'}, cell ≠ other →
    site.program.layout.accesses.get? cell.1 = some access →
    site.program.layout.accesses.get? other.1 = some access' → access.Apart access'
  /-- No byte of a variable belongs to the result. -/
  result : ∀ {cell : Cell site.Scope} {access level},
    site.program.layout.accesses.get? cell.1 = some access →
      access.Apart (.inFrame wordSize 0 level)
  /-- Every store is kept by a memory. -/
  kept : ∀ store : Store site.Scope, ∃ memory, site.view memory = store
  /-- From truth values in logical variables, the code ends exactly with the values of the body, and
  with the stores that these leave. -/
  runs : ∀ {before : Memory}, site.Sane before → ∀ {value store},
    site.Yields body (site.view before) value store ↔
      ∃ after, Executes site.address code before none after ∧
        after (site.address frameLabel) = value ∧ site.view after = store
  /-- The code ends in one memory at most. -/
  unique : ∀ {before after after' : Memory}, Executes site.address code before none after →
    Executes site.address code before none after' → after = after'

variable {site : Site} {frame : Frame} {body : NodeId} {code : Ir.Expr}

/-- Variables are kept apart, so every store is kept by a memory. -/
theorem Fits.exists_view (h : site.Fits frame) (store : Store site.Scope) :
    ∃ memory, site.view memory = store := by
  have hinjective : Function.Injective fun cell : Cell site.Scope =>
      slot site.address site.program.layout cell.1 :=
    fun cell other he => Subtype.ext (h.distinct cell.2 other.2 he)
  refine ⟨Function.extend (fun cell => slot site.address site.program.layout cell.1) store
    fun _ => 0, ?_⟩
  funext cell
  exact hinjective.extend_apply store _ cell

/-- The code of a function leaves the value of the body as its result, and nothing else. -/
theorem Agrees.runs (hagrees : site.Agrees body code)
    (hresult : ∀ cell : Cell site.Scope,
      slot site.address site.program.layout cell.1 ≠ site.address frameLabel)
    {before : Memory} (hs : site.Sane before) {value : Int32}
    {store : Store site.Scope} :
    site.Yields body (site.view before) value store ↔
      ∃ after, Executes site.address (.move (.memory Ir.framePointer) code) before none after ∧
        after (site.address frameLabel) = value ∧ site.view after = store := by
  have hview : ∀ (memory : Memory) (word : Int32),
      site.view (Function.update memory (site.address frameLabel) word) = site.view memory := by
    intro memory word
    funext cell
    exact Function.update_of_ne (hresult cell) _ _
  have hcode : ∀ {after}, Executes site.address (.move (.memory Ir.framePointer) code) before none
        after ↔ ∃ word memory, Computes site.address code before word memory ∧
          after = Function.update memory (site.address frameLabel) word := by
    intro after
    simp [Ir.executes_move_iff, Ir.framePointer, Ir.computes_name_iff, frameLabel]
  constructor
  · intro hy
    obtain ⟨after, hc, rfl, _⟩ := hagrees.complete hs hy
    exact ⟨_, hcode.mpr ⟨value, after, hc, rfl⟩, Function.update_self _ _ _, hview after value⟩
  · rintro ⟨_, hx, rfl, rfl⟩
    obtain ⟨word, after, hc, rfl⟩ := hcode.mp hx
    rw [hview, Function.update_self]
    exact (hagrees.sound hs hc).1

end Site

namespace Compilation

variable {compilation : Compilation} {file source : String}

/-- The code of a function whose body computes with plain expressions only does what the body means,
wherever its frame and the top-level variables are kept. -/
theorem preserves_meaning (h : ofSource file source = .ok compilation) {id result body : NodeId}
    {name : String} {parameters : List NodeId}
    (hk : compilation.program.arena.kind? id =
      some (.definition (.function name parameters result body)))
    (hplain : ∀ part ∈ compilation.program.arena.own body, Plain compilation.program id part) :
    ∃ frame, compilation.program.layout.frames.get? id = some frame ∧
      (∃ code, .code frame code ∈ compilation.chunks.toList) ∧
      ∀ code, .code frame code ∈ compilation.chunks.toList → ∀ address,
        Apart compilation.program.layout frame address →
          Site.Implements ⟨compilation.program, id, address⟩ body code := by
  obtain ⟨root, members, labels, rest, hc⟩ := ofSource_compiled h
  have hlt := hc.index_lt hk (by simp)
  obtain ⟨frame, code, hm, hcodes⟩ := hc.codesOf.total id _ (Nat.zero_le _) hlt hk rfl
  refine ⟨frame, hcodes.1, ⟨code, hm⟩, fun code' hm' address hapart => ?_⟩
  -- the frame of the chunk is that of one function only
  obtain ⟨other, hf, _, _, _, body', value, hk', rfl, _, _, _, hl⟩ :=
    hc.codesOf.sound frame code' hm'
  obtain rfl : other = id := hc.frame_unique hf hcodes.1 rfl
  cases hk.symm.trans hk'
  let site : Site := ⟨compilation.program, other, address⟩
  have hfits : site.Fits frame :=
    ⟨hc.prepared, hf, fun hid hother he => slot_injective hc hf hapart hid hother he⟩
  have hagrees : site.Agrees body value := hl.agrees hfits rfl hplain value List.mem_cons_self
  exact
    { apart := fun hne ha ha' => InScope.apart (Subtype.prop _) (Subtype.prop _) hc.prepared hf
        (fun he => hne (Subtype.ext he)) ha ha'
      result := fun ha => InScope.apart_result (Subtype.prop _) hc.prepared hf ha _
      kept := hfits.exists_view
      runs := hagrees.runs fun cell => slot_ne_result hc.prepared hf hapart cell.2
      unique := fun hx hx' => (hx.unique hx').2 }

/-- In a function that counts, and assigns its counter to a top-level variable. -/
theorem preserves_meaning_of_counting :
    ∃ compilation frame code, ofSource "test"
        "var g: integer; fun f(n: integer): integer = (\x7bfor n = 1, 9, g: \x7bg = n\x7d\x7d, g)" =
          .ok compilation ∧
      compilation.program.layout.frames.get? ⟨15⟩ = some frame ∧
      .code frame code ∈ compilation.chunks.toList ∧
      ∃ address, Site.Implements ⟨compilation.program, ⟨15⟩, address⟩ ⟨14⟩ code ∧
        Site.Sane ⟨compilation.program, ⟨15⟩, address⟩ fun _ => 0 := by
  obtain ⟨compilation, h, hr, hd, hk, hframe, haccesses, htypes, hforms, hbound⟩ :
      ∃ compilation, ofSource "test"
        "var g: integer; fun f(n: integer): integer = (\x7bfor n = 1, 9, g: \x7bg = n\x7d\x7d, g)" =
          .ok compilation ∧
        compilation.program.arena.root = some ⟨16⟩ ∧
        compilation.program.arena.kind? ⟨16⟩ = some (.definitions [⟨1⟩, ⟨15⟩]) ∧
        compilation.program.arena.kind? ⟨15⟩ =
          some (.definition (.function "f" [⟨3⟩] ⟨4⟩ ⟨14⟩)) ∧
        compilation.program.layout.frames.get? ⟨15⟩ = some ⟨.named "f", 1, 8, 0, 0⟩ ∧
        compilation.program.layout.accesses.entries =
          [(⟨1⟩, .global 4 (.named "g")), (⟨3⟩, .parameter 4 4 1)] ∧
        (∀ part ∈ compilation.program.arena.own ⟨14⟩,
          ∀ type ∈ compilation.program.types.get? part, type.isArray = false) ∧
        (∀ part ∈ compilation.program.arena.own ⟨14⟩,
          ∀ item ∈ compilation.program.arena.expression? part,
            item.isPlain compilation.program.arena = true) ∧
        ∀ part ∈ compilation.program.arena.own ⟨14⟩,
          ∀ target ∈ compilation.program.bindings.get? part, target = ⟨1⟩ ∨ target = ⟨3⟩ :=
    exists_of_any (by decide +kernel)
  obtain ⟨root, members, labels, rest, hc⟩ := ofSource_compiled h
  have htop := Arena.Encloses.root hr
  have hfunction := htop.ofOther hd rfl (by simp [NodeKind.children] : (⟨15⟩ : NodeId) ∈ _)
  have hplain : ∀ part ∈ compilation.program.arena.own ⟨14⟩,
      Plain compilation.program ⟨15⟩ part := by
    intro part hm
    refine ⟨fun ht => ?_, fun he => hforms part hm _ he, fun _ hb => ?_⟩
    · exact htypes part hm _ (hc.prepared.typed.get?_eq_some_iff.mpr ht)
    · rcases hbound part hm _ hb with rfl | rfl
      · exact .inr (htop.ofOther hd rfl List.mem_cons_self)
      · exact .inl (hfunction.ofFunction hk rfl List.mem_cons_self)
  -- the frame begins at 0, and the storage of the variable lies behind it
  let address : Label → Int32 := fun label => if label = frameLabel then 0 else 1000
  have hapart : Apart compilation.program.layout ⟨.named "f", 1, 8, 0, 0⟩ address := by
    have hglobal : ∀ {id size label},
        compilation.program.layout.accesses.get? id = some (.global size label) →
          label = .named "g" := by
      intro id size label ha
      have hm := (NodeTable.mem_entries_iff _ _ _).mpr ha
      rw [haccesses] at hm
      simp_all
    constructor
    · intro id size label ha offset hlow hhigh he
      obtain rfl := hglobal ha
      have hvalue : 1000 = Int32.ofInt offset := by simpa [address, frameLabel] using he
      have hoffset := congrArg Int32.toInt hvalue
      simp only at hlow hhigh
      rw [Int32.toInt_ofInt_of_le (by omega) (by omega)] at hoffset
      change 1000 = offset at hoffset
      omega
    · intro id other size size' label label' ha ha' hne
      exact absurd ((hglobal ha).trans (hglobal ha').symm) hne
  obtain ⟨frame, hf, ⟨code, hm⟩, hall⟩ := preserves_meaning h hk hplain
  obtain rfl := Option.some.inj (hf.symm.trans hframe)
  exact ⟨compilation, _, code, h, hf, hm, address, hall code hm address hapart, fun _ _ => .inl rfl⟩

end Compilation

end Pins
