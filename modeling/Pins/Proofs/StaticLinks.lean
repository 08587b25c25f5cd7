import Pins.Proofs.Kept

/-!
# Static links

An activation is a function at work together with the activation that its static link leads to. A
call starts an activation of the callee, and its static link is what the link argument of the call
denotes in the activation that calls (`Calls`). The activations that wait for each other form a
stack, on which calls push and from which returns pop (`Step`).

Whatever is called in whatever order, every activation is linked to one of the function directly
around its own (`Activation.Nested`), so the links lead outwards one function a step. The link
argument of a call and the address of a variable follow as many links as there are levels to the
function they mean, and that function is around the one at work: names mean what stands around them.
Nor do links ever lead to an activation that has returned (`Live`).
-/

namespace Pins

/-- A function at work. Its static link leads to another activation, or nowhere. -/
inductive Activation where
  | unlinked (function : NodeId)
  | linked (function : NodeId) (link : Activation)

namespace Activation

variable {arena : Arena} {activation current target : Activation} {depth level : Nat}

/-- The function at work. -/
def function : Activation → NodeId
  | unlinked function => function
  | linked function _ => function

/-- What the static link leads to. -/
def link? : Activation → Option Activation
  | unlinked _ => none
  | linked _ link => some link

/-- A function at work with a static link. -/
def start (function : NodeId) : Option Activation → Activation
  | none => unlinked function
  | some link => linked function link

/-- What so many static links lead to. -/
def follow : Nat → Activation → Option Activation
  | 0, activation => some activation
  | _ + 1, unlinked _ => none
  | depth + 1, linked _ link => link.follow depth

@[simp] theorem function_start (function : NodeId) (link : Option Activation) :
    (start function link).function = function := by cases link <;> rfl

@[simp] theorem link?_start (function : NodeId) (link : Option Activation) :
    (start function link).link? = link := by cases link <;> rfl

/-- One more link is followed at the end of the others. -/
theorem follow_succ (depth : Nat) (activation : Activation) :
    activation.follow (depth + 1) = (activation.follow depth).bind link? := by
  induction depth generalizing activation with
  | zero => cases activation <;> rfl
  | succ depth ih =>
    cases activation with
    | unlinked => rfl
    | linked function link => exact ih link

/-- A function is at work, and the links lead from each function to the one directly around it. -/
inductive Nested (arena : Arena) : Activation → Prop where
  | unlinked {function : NodeId} (hf : (arena.kind? function).any NodeKind.isFunction = true)
      (he : arena.Encloses none function) : Nested arena (unlinked function)
  | linked {function : NodeId} {link : Activation}
      (hf : (arena.kind? function).any NodeKind.isFunction = true)
      (he : arena.Encloses (some link.function) function) (h : Nested arena link) :
      Nested arena (linked function link)

namespace Nested

theorem isFunction (h : activation.Nested arena) :
    (arena.kind? activation.function).any NodeKind.isFunction = true := by
  cases h <;> assumption

/-- A function stands where its link leads to. -/
theorem encloses (h : activation.Nested arena) :
    arena.Encloses (activation.link?.map function) activation.function := by
  cases h <;> assumption

/-- The links lead to an activation of every function around the one at work, by as many links as
there are levels between the two. -/
theorem follow (h : activation.Nested arena) (ht : arena.IsTree) {owner : NodeId} {target : Nat}
    (ha : arena.Around (some owner) (some activation.function))
    (hl : arena.Level (some activation.function) level) (ho : arena.Level (some owner) target) :
    ∃ found, activation.follow (level - target) = some found ∧ found.function = owner ∧
      found.Nested arena := by
  induction h generalizing level with
  | @unlinked function hf he =>
    cases ha with
    | refl =>
      obtain rfl := hl.unique ht ho
      exact ⟨_, by rw [Nat.sub_self]; rfl, rfl, .unlinked hf he⟩
    | step he' ha =>
      obtain rfl := he.unique ht he'
      cases ha
  | @linked function link hf he h ih =>
    cases ha with
    | refl =>
      obtain rfl := hl.unique ht ho
      exact ⟨_, by rw [Nat.sub_self]; rfl, rfl, .linked hf he h⟩
    | step he' ha =>
      obtain rfl := he.unique ht he'
      cases hl with
      | @inside _ _ level he'' hl =>
        obtain rfl := he'.unique ht he''
        have hle := ha.le ht hl ho
        rw [Nat.succ_sub hle]
        exact ih ha hl

end Nested

end Activation

/-- What the code of a static link denotes in an activation, if anything: the constant 0 is no
activation, the frame pointer is the activation itself, and at the address of an activation its own
static link is kept. -/
def Ir.Expr.denotes? (current : Activation) : Ir.Expr → Option (Option Activation)
  | .constant value => if value = 0 then some none else none
  | .name label => if label = .named "\x7bFP\x7d" then some (some current) else none
  | .memory address =>
    match address.denotes? current with
    | some (some activation) => some activation.link?
    | _ => none
  | _ => none

/-- Static links that can be followed denote what they lead to. -/
theorem Ir.denotes?_staticLink {current target : Activation} {depth : Nat}
    (h : current.follow depth = some target) :
    (staticLink depth).denotes? current = some (some target) := by
  induction depth generalizing target with
  | zero => exact congrArg some h
  | succ depth ih =>
    rw [Activation.follow_succ, Option.bind_eq_some_iff] at h
    obtain ⟨between, hbetween, hlink⟩ := h
    simp only [staticLink, Expr.denotes?, ih hbetween, hlink]

/-- A call in the function at work starts an activation of the callee, linked to what the link
argument of the call denotes. -/
inductive Calls (compilation : Compilation) (current : Activation) : Activation → Prop where
  | call {id function : NodeId} {callee : String} {arguments : List NodeId} {save : Ir.Stmt}
      {label : Label} {link : Ir.Expr} {codes : List Ir.Expr} {target : Option Activation}
      (he : compilation.program.arena.Encloses (some current.function) id)
      (hk : compilation.program.arena.kind? id = some (.expression (.call callee arguments)))
      (hr : Builtin.isRoutine callee = false)
      (hb : compilation.program.bindings.get? id = some function)
      (ht : compilation.trees.get? id =
        some (.expr (.eseq save (.call label (link :: codes)))))
      (hd : link.denotes? current = some target) :
      Calls compilation current (.start function target)

/-- The function at work calls another one, or returns. -/
inductive Step (compilation : Compilation) : List Activation → List Activation → Prop where
  | call {current called : Activation} {callers : List Activation}
      (h : Calls compilation current called) :
      Step compilation (current :: callers) (called :: current :: callers)
  | return {current : Activation} {callers : List Activation} :
      Step compilation (current :: callers) callers

/-- A stack is reached by calls and returns from an activation of a top-level function. -/
inductive Reached (compilation : Compilation) : List Activation → Prop where
  | start {root function : NodeId} {members : List NodeId}
      (hr : compilation.program.arena.root = some root)
      (hd : compilation.program.arena.kind? root = some (.definitions members))
      (hm : function ∈ members)
      (hf : (compilation.program.arena.kind? function).any NodeKind.isFunction = true) :
      Reached compilation [.unlinked function]
  | step {stack after : List Activation} (h : Reached compilation stack)
      (hs : Step compilation stack after) : Reached compilation after

/-- All links lead to activations further down the stack. -/
def Live : List Activation → Prop
  | [] => True
  | activation :: callers => (∀ link ∈ activation.link?, link ∈ callers) ∧ Live callers

theorem Live.mem_of_link {stack : List Activation} {activation link : Activation} (h : Live stack)
    (hm : activation ∈ stack) (hl : link ∈ activation.link?) : link ∈ stack := by
  induction stack with
  | nil => cases hm
  | cons first callers ih =>
    rcases List.mem_cons.mp hm with rfl | hm
    · exact List.mem_cons_of_mem _ (h.1 link hl)
    · exact List.mem_cons_of_mem _ (ih h.2 hm)

/-- Links lead from the activations of a stack to activations of the stack. -/
theorem Live.mem_of_follow {stack : List Activation} {activation target : Activation} {depth : Nat}
    (h : Live stack) (hm : activation ∈ stack) (hf : activation.follow depth = some target) :
    target ∈ stack := by
  induction depth generalizing target with
  | zero =>
    cases hf
    exact hm
  | succ depth ih =>
    rw [Activation.follow_succ, Option.bind_eq_some_iff] at hf
    obtain ⟨between, hbetween, hlink⟩ := hf
    exact h.mem_of_link (ih hbetween) hlink

namespace Lowering

variable {program : Program} {id definition function : NodeId} {frame : Frame} {access : Access}
  {current : Activation} {caller callee level target : Nat} {offset : Int} {type : Ty}

/-- A function that is not a top-level one is linked to the function around it. -/
theorem linkToCallee_eq (hcallee : 1 < callee) :
    linkToCallee caller callee = Ir.staticLink (caller + 1 - callee) := by
  unfold linkToCallee
  rw [if_neg (by omega)]
  split
  · next heq =>
    rw [heq, Nat.sub_self]
    rfl
  · rfl

/-- An address in the frame of a function around the one at work. -/
theorem slotAddress_eq (hle : target ≤ level) :
    slotAddress level target offset =
      .binop .add (Ir.staticLink (level - target)) (.constant offset) := by
  unfold slotAddress
  rw [Nat.sub_eq_zero_of_le hle, Nat.add_zero]

/-- What a call of a function is bound to is a function. -/
theorem Prepared.isFunction_of_call (hp : Prepared program) {name : String}
    {arguments : List NodeId}
    (hk : program.arena.kind? id = some (.expression (.call name arguments)))
    (hr : Builtin.isRoutine name = false) (hb : program.bindings.get? id = some function) :
    (program.arena.kind? function).any NodeKind.isFunction = true := by
  have hright := hp.bound id (Arena.index_lt_size hk)
  simp only [Binding.BoundRight, hk, Option.bind_some, NodeKind.accepted?, hr, hb] at hright
  obtain ⟨found, item, he, hd, hkind⟩ := hright
  cases he
  rw [Arena.kind?_of_definition? hd]
  cases item <;> simp_all [Definition.kind, NodeKind.isFunction]

/-- The link argument of a call denotes what the callee is to be linked to: an activation of the
function around the callee, to which links of the calling one lead. -/
theorem Prepared.denotes_linkToCallee (hp : Prepared program) (hn : current.Nested program.arena)
    (hl : program.arena.Level (some current.function) level)
    (he : program.arena.Encloses (some current.function) id)
    (hf : (program.arena.kind? function).any NodeKind.isFunction = true)
    (hb : program.bindings.get? id = some function)
    (hframe : program.layout.frames.get? function = some frame) :
    ∃ target, (linkToCallee level frame.level).denotes? current = some target ∧
      (Activation.start function target).Nested program.arena ∧
      ∀ link ∈ target, ∃ depth, current.follow depth = some link := by
  obtain ⟨outer, he', hreaches⟩ := hp.lexical id function hb
  obtain rfl := he.unique hp.tree he'
  obtain ⟨enclosing, hfunction, haround⟩ := hreaches
  generalize hcallee : frame.level = callee
  have hlevel := (hp.laidOut.framed hframe).level
  rw [hcallee] at hlevel
  cases hlevel with
  | @inside _ _ depth hfunction' hdepth =>
    obtain rfl := hfunction.unique hp.tree hfunction'
    cases enclosing with
    | none =>
      cases hdepth
      exact ⟨none, rfl, .unlinked hf hfunction, by simp⟩
    | some parent =>
      have hle := haround.le hp.tree hl hdepth
      obtain ⟨found, hfollow, rfl, hnested⟩ := hn.follow hp.tree haround hl hdepth
      refine ⟨some found, ?_, .linked hf hfunction hnested, fun link hlink => ?_⟩
      · have hpositive : 0 < depth := by
          cases hdepth
          omega
        rw [linkToCallee_eq (by omega), Nat.add_sub_add_right]
        exact Ir.denotes?_staticLink hfollow
      · cases hlink
        exact ⟨_, hfollow⟩

/-- A name that is bound to a value in a frame stands in a function that is in the function of this
frame, or is that function. -/
theorem Prepared.exists_declaring (hp : Prepared program)
    (hb : program.bindings.get? id = some definition)
    (ha : program.layout.accesses.get? definition = some access)
    (hslot : ∃ size, access = .inFrame size offset target ∨
      access = .parameter size offset target) :
    ∃ function declaring, program.arena.Encloses (some function) id ∧
      program.arena.Encloses (some declaring) definition ∧
      program.arena.Around (some declaring) (some function) ∧
      program.arena.Level (some declaring) target := by
  obtain ⟨outer, hid, enclosing, hdefinition, haround⟩ := hp.lexical id definition hb
  cases enclosing with
  | none =>
    -- outside all functions values have labels
    obtain ⟨_, _, hglobal⟩ := hp.laidOut.outside hdefinition ha
    obtain ⟨_, hslot | hslot⟩ := hslot <;> cases hglobal.symm.trans hslot
  | some declaring =>
    obtain ⟨frame, hframe⟩ := hp.laidOut.exists_frame hdefinition.any_isFunction
    have hlevel := (hp.laidOut.framed hframe).level
    have hholds := hp.laidOut.holds hp.tree hdefinition hframe ha
    have htarget : target = frame.level := by
      obtain ⟨_, rfl | rfl⟩ := hslot <;> exact hholds.1
    rw [← htarget] at hlevel
    cases haround with
    | refl => exact ⟨declaring, declaring, hid, hdefinition, .refl _, hlevel⟩
    | step he haround =>
      exact ⟨_, declaring, hid, hdefinition, .step he haround, hlevel⟩

end Lowering

namespace Compilation

variable {file source : String} {compilation : Compilation} {current called : Activation}
  {stack : List Activation}

/-- What compiles was prepared for lowering. -/
theorem ofSource_prepared (h : ofSource file source = .ok compilation) :
    Lowering.Prepared compilation.program := by
  obtain ⟨_, _, _, _, hc⟩ := ofSource_compiled h
  exact hc.prepared

/-- A call links the callee to the function around it, by links of the calling function. -/
theorem nested_of_calls (h : ofSource file source = .ok compilation)
    (hn : current.Nested compilation.program.arena) (hc : Calls compilation current called) :
    called.Nested compilation.program.arena ∧
      ∀ link ∈ called.link?, ∃ depth, current.follow depth = some link := by
  have hp := ofSource_prepared h
  cases hc with
  | call he hk hr hb ht hd =>
    obtain ⟨outer, level, function, frame, codes, he', hl, hb', hf, ht'⟩ := exists_userCall h hk hr
    obtain rfl := he.unique hp.tree he'
    cases hb.symm.trans hb'
    cases ht.symm.trans ht'
    obtain ⟨target, hd', hnested, hlinks⟩ := hp.denotes_linkToCallee hn hl he
      (hp.isFunction_of_call hk hr hb) hb hf
    cases hd.symm.trans hd'
    rw [Activation.link?_start]
    exact ⟨hnested, hlinks⟩

/-- Every call of a function can be made by an activation of the function it stands in. -/
theorem exists_calls (h : ofSource file source = .ok compilation)
    (hn : current.Nested compilation.program.arena) {id function : NodeId} {callee : String}
    {arguments : List NodeId}
    (he : compilation.program.arena.Encloses (some current.function) id)
    (hk : compilation.program.arena.kind? id = some (.expression (.call callee arguments)))
    (hr : Builtin.isRoutine callee = false)
    (hb : compilation.program.bindings.get? id = some function) :
    ∃ called, Calls compilation current called ∧ called.function = function := by
  have hp := ofSource_prepared h
  obtain ⟨outer, level, _, frame, codes, he', hl, hb', hf, ht⟩ := exists_userCall h hk hr
  obtain rfl := he.unique hp.tree he'
  cases hb.symm.trans hb'
  obtain ⟨target, hd, _⟩ := hp.denotes_linkToCallee hn hl he (hp.isFunction_of_call hk hr hb) hb hf
  exact ⟨_, .call he hk hr hb ht hd, Activation.function_start _ _⟩

/-- A call or a return keeps the links of a stack nested and live. -/
theorem nested_of_step (h : ofSource file source = .ok compilation) {after : List Activation}
    (hs : Step compilation stack after)
    (hn : ∀ activation ∈ stack, activation.Nested compilation.program.arena) (hlive : Live stack) :
    (∀ activation ∈ after, activation.Nested compilation.program.arena) ∧ Live after := by
  cases hs with
  | @call current called callers hc =>
    obtain ⟨hcalled, hlinks⟩ := nested_of_calls h (hn current List.mem_cons_self) hc
    refine ⟨List.forall_mem_cons.mpr ⟨hcalled, hn⟩, fun link hlink => ?_, hlive⟩
    obtain ⟨depth, hfollow⟩ := hlinks link hlink
    exact hlive.mem_of_follow List.mem_cons_self hfollow
  | @«return» current callers =>
    exact ⟨fun activation hm => hn activation (List.mem_cons_of_mem _ hm), hlive.2⟩

/-- On every stack that is reached, all links lead to the function around and to live
activations. -/
theorem nested_of_reached (h : ofSource file source = .ok compilation)
    (hr : Reached compilation stack) :
    (∀ activation ∈ stack, activation.Nested compilation.program.arena) ∧ Live stack := by
  induction hr with
  | start hr hd hm hf =>
    have he := (Arena.Encloses.root hr).ofOther hd rfl hm
    exact ⟨by simpa using .unlinked hf he, by simp [Activation.link?], trivial⟩
  | step _ hs ih => exact nested_of_step h hs ih.1 ih.2

/-- The static links of an activation lead outwards through the functions around its own, one a
step, and every call in it can be made. -/
structure LinksRight (compilation : Compilation) (activation : Activation) (frame : Frame) :
    Prop where
  /-- The frame of the function has its nesting depth as level. -/
  level : compilation.program.arena.Level (some activation.function) frame.level
  /-- A top-level function has no link. -/
  outermost : frame.level = 1 → activation.link? = none
  /-- Any other function is linked to an activation of the function it stands in. -/
  parent : 2 ≤ frame.level → ∃ parent, activation.link? = some parent ∧
    compilation.program.arena.Encloses (some parent.function) activation.function
  /-- As many links as there are levels between lead to the function around it at a level. -/
  ancestor : ∀ target, 1 ≤ target → target ≤ frame.level →
    ∃ ancestor around, activation.follow (frame.level - target) = some ancestor ∧
      compilation.program.arena.Around (some ancestor.function) (some activation.function) ∧
      compilation.program.layout.frames.get? ancestor.function = some around ∧
      around.level = target
  /-- The link argument of every call denotes something, so that the callee can be started. -/
  call : ∀ id callee arguments,
    compilation.program.arena.Encloses (some activation.function) id →
    compilation.program.arena.kind? id = some (.expression (.call callee arguments)) →
    Builtin.isRoutine callee = false →
    ∃ called, Calls compilation activation called ∧
      compilation.program.bindings.get? id = some called.function

/-- A name in a function is read from an offset in the frame that the links between the levels lead
to, and this is the frame of the function that declares what the name means. -/
structure ReadsRight (compilation : Compilation) (id definition : NodeId) (offset : Int)
    (target : Nat) (function : NodeId) (frame : Frame) : Prop where
  /-- The name stands in the function. -/
  encloses : compilation.program.arena.Encloses (some function) id
  /-- What the name means is not nested deeper. -/
  le : target ≤ frame.level
  /-- As many links are followed as there are levels between, then the offset is added. Only an
  array is not read: it stands for its address. -/
  code : ∃ value type, compilation.trees.get? id = some (.expr value) ∧
    compilation.program.types.get? definition = some type ∧
    (value = .memory (.binop .add (Ir.staticLink (frame.level - target)) (.constant offset)) ∨
      type.isArray = true ∧
        value = .binop .add (Ir.staticLink (frame.level - target)) (.constant offset))
  /-- In every run the links lead to a live activation of the declaring function. -/
  declaring : ∀ stack, Reached compilation stack → ∀ activation ∈ stack,
    activation.function = function → ∃ declaring ∈ stack, ∃ around,
      (Ir.staticLink (frame.level - target)).denotes? activation = some (some declaring) ∧
      compilation.program.arena.Encloses (some declaring.function) definition ∧
      compilation.program.layout.frames.get? declaring.function = some around ∧
      around.level = target

/-- Nested links are right. -/
theorem linksRight_of_nested (h : ofSource file source = .ok compilation)
    (hn : current.Nested compilation.program.arena) :
    ∃ frame, compilation.program.layout.frames.get? current.function = some frame ∧
      LinksRight compilation current frame := by
  have hp := ofSource_prepared h
  obtain ⟨frame, hframe⟩ := hp.laidOut.exists_frame hn.isFunction
  have hlevel := (hp.laidOut.framed hframe).level
  refine ⟨frame, hframe, hlevel, fun hone => ?_, fun htwo => ?_, fun target hpos hle => ?_, ?_⟩
  · cases hn with
    | unlinked => rfl
    | linked hf he hn =>
      obtain ⟨level, hl⟩ := hn.encloses.exists_level
      have hunique := hlevel.unique hp.tree (.inside he (.inside hn.encloses hl))
      omega
  · cases hn with
    | unlinked hf he =>
      have hunique := hlevel.unique hp.tree (.inside he .outside)
      omega
    | @linked function link hf he hn => exact ⟨link, rfl, he⟩
  · obtain ⟨middle, haround, hmiddle⟩ := hlevel.exists_around hle
    cases middle with
    | none =>
      cases hmiddle
      omega
    | some owner =>
      obtain ⟨found, hfollow, rfl, hfound⟩ := hn.follow hp.tree haround hlevel hmiddle
      obtain ⟨around, hframe'⟩ := hp.laidOut.exists_frame hfound.isFunction
      exact ⟨found, around, hfollow, haround, hframe',
        (hp.laidOut.framed hframe').level.unique hp.tree hmiddle⟩
  · intro id callee arguments he hk hr
    obtain ⟨_, _, function, _, _, _, _, hb, _⟩ := exists_userCall h hk hr
    obtain ⟨called, hcalls, hcalled⟩ := exists_calls h hn he hk hr hb
    exact ⟨called, hcalls, hcalled ▸ hb⟩

/-- A name that means a value in a frame is read from there. -/
theorem readsRight_of_name (h : ofSource file source = .ok compilation) {id definition : NodeId}
    {word : String} {access : Access} {size target : Nat} {offset : Int}
    (hk : compilation.program.arena.kind? id = some (.expression (.name word)))
    (hb : compilation.program.bindings.get? id = some definition)
    (ha : compilation.program.layout.accesses.get? definition = some access)
    (hslot : access = .inFrame size offset target ∨ access = .parameter size offset target) :
    ∃ function frame, compilation.program.layout.frames.get? function = some frame ∧
      ReadsRight compilation id definition offset target function frame := by
  have hp := ofSource_prepared h
  obtain ⟨function, declaring, he, hdeclaring, haround, htarget⟩ :=
    hp.exists_declaring hb ha ⟨size, hslot⟩
  obtain ⟨frame, hframe⟩ := hp.laidOut.exists_frame he.any_isFunction
  have hlevel := (hp.laidOut.framed hframe).level
  have hle := haround.le hp.tree hlevel htarget
  refine ⟨function, frame, hframe, he, hle, ?_, fun stack hreached activation hm hat => ?_⟩
  · obtain ⟨value, outer, level, labels, chunks, rest, hcode, he', hl, hlowers⟩ := exists_kept h hk
    obtain ⟨_, type, _, hb', ht, ha', hvalue⟩ := hlowers.name hk
    cases hb.symm.trans hb'
    cases ha.symm.trans ha'
    obtain rfl := he.unique hp.tree he'
    obtain rfl := hlevel.unique hp.tree hl
    refine ⟨value, type, hcode, ht, ?_⟩
    rw [← Lowering.slotAddress_eq hle]
    rcases hslot with rfl | rfl <;> cases hvalue
    · rw [Lowering.valueAt]
      cases type.isArray with
      | true => exact .inr ⟨rfl, rfl⟩
      | false => exact .inl rfl
    · exact .inl rfl
  · obtain ⟨hnested, hlive⟩ := nested_of_reached h hreached
    subst hat
    obtain ⟨found, hfollow, rfl, hfound⟩ :=
      (hnested activation hm).follow hp.tree haround hlevel htarget
    obtain ⟨around, hframe'⟩ := hp.laidOut.exists_frame hfound.isFunction
    exact ⟨found, hlive.mem_of_follow hm hfollow, around, Ir.denotes?_staticLink hfollow,
      hdeclaring, hframe', (hp.laidOut.framed hframe').level.unique hp.tree htarget⟩

/-- In every run of a compiled source, the links of all activations are right, and all names of
values in frames are read from the frames they mean. -/
theorem static_links (h : ofSource file source = .ok compilation) :
    (∀ stack, Reached compilation stack → ∀ activation ∈ stack,
      ∃ frame, compilation.program.layout.frames.get? activation.function = some frame ∧
        LinksRight compilation activation frame) ∧
    ∀ id word definition access size offset target,
      compilation.program.arena.kind? id = some (.expression (.name word)) →
      compilation.program.bindings.get? id = some definition →
      compilation.program.layout.accesses.get? definition = some access →
      (access = .inFrame size offset target ∨ access = .parameter size offset target) →
      ∃ function frame, compilation.program.layout.frames.get? function = some frame ∧
        ReadsRight compilation id definition offset target function frame := by
  constructor
  · intro stack hreached activation hm
    exact linksRight_of_nested h ((nested_of_reached h hreached).1 activation hm)
  · intro id word definition access size offset target hk hb ha hslot
    exact readsRight_of_name h hk hb ha hslot

/-- In a function that calls itself inside another one and reads a parameter of that. -/
theorem static_links_of_nested :
    ∃ compilation inner, ofSource "test"
        "fun f(x: integer): integer = g(1) \x7bwhere fun g(y: integer): integer = x + g(y)\x7d" =
          .ok compilation ∧
      Reached compilation [inner, .unlinked ⟨15⟩] ∧ inner.function = ⟨12⟩ ∧
      (∃ parent, inner.link? = some parent ∧
        compilation.program.arena.Encloses (some parent.function) ⟨12⟩) ∧
      ∃ function frame, ReadsRight compilation ⟨8⟩ ⟨1⟩ 4 1 function frame := by
  obtain ⟨compilation, h, hr, hd, hf, hw, hc, hb, hg, hx, hbx, hax⟩ : ∃ compilation,
      ofSource "test"
        "fun f(x: integer): integer = g(1) \x7bwhere fun g(y: integer): integer = x + g(y)\x7d" =
          .ok compilation ∧
        compilation.program.arena.root = some ⟨16⟩ ∧
        compilation.program.arena.kind? ⟨16⟩ = some (.definitions [⟨15⟩]) ∧
        compilation.program.arena.kind? ⟨15⟩ =
          some (.definition (.function "f" [⟨1⟩] ⟨2⟩ ⟨14⟩)) ∧
        compilation.program.arena.kind? ⟨14⟩ = some (.expression (.whereClause ⟨13⟩ ⟨4⟩)) ∧
        compilation.program.arena.kind? ⟨4⟩ = some (.expression (.call "g" [⟨3⟩])) ∧
        compilation.program.bindings.get? ⟨4⟩ = some ⟨12⟩ ∧
        (compilation.program.layout.frames.get? ⟨12⟩).map Frame.level = some 2 ∧
        compilation.program.arena.kind? ⟨8⟩ = some (.expression (.name "x")) ∧
        compilation.program.bindings.get? ⟨8⟩ = some ⟨1⟩ ∧
        compilation.program.layout.accesses.get? ⟨1⟩ = some (.parameter 4 4 1) :=
    exists_of_any (by decide +kernel)
  have hstart : Reached compilation [.unlinked ⟨15⟩] :=
    .start hr hd List.mem_cons_self (by simp [hf, NodeKind.isFunction])
  obtain ⟨_, _, hlinks⟩ := (static_links h).1 _ hstart _ List.mem_cons_self
  have hbody : compilation.program.arena.Encloses (some ⟨15⟩) ⟨14⟩ :=
    ((Arena.Encloses.root hr).ofOther hd rfl List.mem_cons_self).ofFunction hf rfl
      (by simp [NodeKind.children, Definition.children])
  have hcall := hbody.ofExpression hw (by simp [Expression.children] :
    (⟨4⟩ : NodeId) ∈ (Expression.whereClause ⟨13⟩ ⟨4⟩).children)
  obtain ⟨inner, hcalls, hinner⟩ := hlinks.call ⟨4⟩ "g" [⟨3⟩] hcall hc (by decide)
  have hfunction : inner.function = ⟨12⟩ := Option.some.inj (hinner.symm.trans hb)
  have hreached : Reached compilation [inner, .unlinked ⟨15⟩] := .step hstart (.call hcalls)
  obtain ⟨frame, hframe, hright⟩ := (static_links h).1 _ hreached inner List.mem_cons_self
  rw [hfunction] at hframe
  have hlevel : frame.level = 2 := by simpa [hframe] using hg
  have hparent := hright.parent (by omega)
  rw [hfunction] at hparent
  obtain ⟨function, outer, _, hreads⟩ :=
    (static_links h).2 ⟨8⟩ "x" ⟨1⟩ (.parameter 4 4 1) 4 4 1 hx hbx hax (.inr rfl)
  exact ⟨compilation, inner, h, hreached, hfunction, hparent, function, outer, hreads⟩

end Compilation

end Pins
