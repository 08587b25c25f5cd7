import Pins.Proofs.Checking
import Pins.Proofs.TypeTexts
import Pins.Compilation

/-!
# What a mismatch of types reports

An argument or the body of a function is refused where its type is not the one that is asked for,
and the report shows both types in their written forms. As these determine the types, the report
shows two different texts (`written_types_differ`). This holds of every arena under any bindings,
whether it was read from a source or not.
-/

namespace Pins.Typing

variable {arena : Arena} {bindings : NodeTable NodeId} {id : NodeId} {diagnostic : Diagnostic}

/-- What typing reports is found by checking itself, or it is a cycle of definitions. -/
def Tells (diagnostic : Diagnostic) : Prop :=
  diagnostic.fault.IsLocal ∨ ∃ name, diagnostic.fault = .cyclicTypeDefinition name

/-- From any state, a step stops with nothing but what typing reports. -/
abbrev Telling {α : Type} (step : Check α) : Prop := Pass.Keeps Tells (fun _ => True) step

theorem permits_tells : Permits arena Tells := fun _ h _ => .inl h

/-- Keeping a type may be refused. -/
theorem record_tells {type : Ty} : Telling (record arena id type) := by
  intro state _
  simp only [record, Pass.runs_bind, Pass.runs_get]
  cases state.types.store? id type with
  | none => exact .inl trivial
  | some types => trivial

/-- A definition that depends on itself is a cycle, or one that no program has. -/
theorem cycleFault_tells (definition : Definition) :
    Tells ⟨cycleFault definition, arena.position id⟩ := by
  cases definition with
  | type name written => exact .inr ⟨name, rfl⟩
  | function | var | parameter => exact .inl trivial

section Lookups

variable {ofDefinition ofWritten : NodeId → Check Ty} (hd : ∀ id, Telling (ofDefinition id))
  (hw : ∀ id, Telling (ofWritten id))

include hd hw

theorem definitionStep_tells : Telling (definitionStep arena ofDefinition ofWritten id) := by
  intro state hk
  cases hdefinition : arena.definition? id with
  | none =>
    simp only [definitionStep, hdefinition]
    exact .inl trivial
  | some definition =>
    simp only [definitionStep, hdefinition, Pass.runs_bind, Pass.runs_get]
    cases state.resolution id with
    | done type => trivial
    | inProgress => exact cycleFault_tells definition
    | unvisited =>
      have hstorage : ∀ written, Telling (ofWritten written >>= record arena id) :=
        fun written => (hw written).bind fun _ => record_tells
      simp only [Pass.runs_bind, Pass.runs_modify]
      cases definition with
      | var name written | type name written | parameter name written =>
        exact hstorage written (state.beginning id) hk
      | function name parameters result body =>
        have hyields : ∀ types : List Ty, Telling (ofWritten result >>= fun yielded =>
            record arena id (.function types yielded)) :=
          fun types => (hw result).bind fun _ => record_tells
        exact ((Pass.Keeps.mapM hd).bind hyields) (state.beginning id) hk

theorem writtenStep_tells : Telling (writtenStep arena bindings ofDefinition ofWritten id) := by
  refine memoized_keeps ?_
  cases arena.type? id with
  | none => exact fail_keeps permits_tells trivial
  | some written =>
    cases written with
    | atom word => exact record_tells
    | array length element =>
      refine (hw element).bind fun type => ?_
      exact .ite record_tells fun _ => fail_keeps permits_tells trivial
    | name word =>
      cases bindings.get? id with
      | none => exact fail_keeps permits_tells trivial
      | some target => exact (hd target).bind fun _ => record_tells

end Lookups

/-- However deep lookups are nested, they stop with nothing else. -/
theorem lookups_tell (fuel : Nat) (id : NodeId) :
    Telling (definitionTypeWithin arena bindings fuel id) ∧
      Telling (writtenTypeWithin arena bindings fuel id) := by
  induction fuel generalizing id with
  | zero => exact ⟨fail_keeps permits_tells trivial, fail_keeps permits_tells trivial⟩
  | succ fuel ih =>
    have hd := fun id => (ih id).1
    have hw := fun id => (ih id).2
    exact ⟨definitionStep_tells hd hw, writtenStep_tells hd hw⟩

/-- However deep checks are nested, they stop with nothing else. -/
theorem checks_tell (fuel : Nat) (id : NodeId) :
    Telling (expressionTypeWithin arena bindings fuel id) ∧
      Telling (checkWithin arena bindings fuel id) := by
  induction fuel generalizing id with
  | zero => exact ⟨fail_keeps permits_tells trivial, fail_keeps permits_tells trivial⟩
  | succ fuel ih =>
    have hd : ∀ id, Telling (definitionTypeWithin arena bindings fuel id) :=
      fun id => (lookups_tell fuel id).1
    have hw : ∀ id, Telling (writtenTypeWithin arena bindings fuel id) :=
      fun id => (lookups_tell fuel id).2
    have htype := fun id => (ih id).1
    have hcheck := fun id => (ih id).2
    refine ⟨memoized_keeps ?_, nodeStep_keeps permits_tells htype hd hcheck hw⟩
    cases arena.expression? id with
    | none => exact fail_keeps permits_tells trivial
    | some expression =>
      exact (expressionStep_keeps permits_tells htype hd hcheck).bind fun _ => record_tells

/-- What stops the typing of an arena is found by checking itself, or it is a cycle. -/
theorem ofArena_tells (h : ofArena arena bindings = .error diagnostic) : Tells diagnostic := by
  unfold ofArena at h
  split at h
  · cases h
  · next root _ =>
    have hrun : Telling (check arena bindings root) := (checks_tell arena.depthBound root).2
    exact (hrun .initial trivial).of_map_error h

/-- Different types have different written forms, and where typing sets two types against each
other, their written forms are different. -/
theorem written_types_differ :
    Function.Injective Ty.text ∧
    ∀ arena bindings diagnostic, ofArena arena bindings = .error diagnostic →
      (∀ function index expected received,
        diagnostic.fault = .argumentTypeMismatch function index expected received →
          expected ≠ received) ∧
      ∀ function expected received,
        diagnostic.fault = .returnTypeMismatch function expected received →
          expected ≠ received := by
  refine ⟨fun _ _ => Ty.text_inj, fun arena bindings diagnostic h => ?_⟩
  have htells := ofArena_tells h
  constructor
  · intro function index expected received hfault
    simp only [Tells, hfault, Fault.IsLocal, reduceCtorEq, exists_false, or_false] at htells
    obtain ⟨first, second, hne, rfl, rfl⟩ := htells
    exact fun htext => hne (Ty.text_inj htext)
  · intro function expected received hfault
    simp only [Tells, hfault, Fault.IsLocal, reduceCtorEq, exists_false, or_false] at htells
    obtain ⟨first, second, hne, rfl, rfl⟩ := htells
    exact fun htext => hne (Ty.text_inj htext)

/-- A parameter takes an array of arrays, the argument is an array of numbers. -/
theorem written_types_differ_of_nested : ∃ arena bindings diagnostic,
    ofArena arena bindings = .error diagnostic ∧
      diagnostic.fault = .argumentTypeMismatch "g" 0 "arr[2] arr[3] integer" "arr[2] integer" ∧
      "arr[2] arr[3] integer" ≠ "arr[2] integer" := by
  have hs : ((tokenize "test" ("fun g(a: arr[2] arr[3] integer): integer = 1; " ++
      "fun f(b: arr[2] integer): integer = g(b)")).toOption.any fun tokens =>
        (parse "test" tokens).toOption.any fun arena =>
          (Binding.ofArena arena).toOption.any fun bindings =>
            match ofArena arena bindings with
            | .ok _ => false
            | .error found => decide (found.fault =
                .argumentTypeMismatch "g" 0 "arr[2] arr[3] integer" "arr[2] integer")) = true := by
    decide +kernel
  simp only [Option.any_eq_true] at hs
  obtain ⟨tokens, _, arena, _, bindings, _, hfound⟩ := hs
  cases h : ofArena arena bindings with
  | ok types => simp [h] at hfound
  | error diagnostic =>
    have hfault : diagnostic.fault =
        .argumentTypeMismatch "g" 0 "arr[2] arr[3] integer" "arr[2] integer" := by
      simpa [h] using hfound
    exact ⟨arena, bindings, diagnostic, h, hfault,
      (written_types_differ.2 arena bindings diagnostic h).1 _ _ _ _ hfault⟩

end Pins.Typing
