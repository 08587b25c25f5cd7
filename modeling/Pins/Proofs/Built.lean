import Pins.Proofs.Forest
import Pins.Proofs.Onward

/-!
# Shifts and reductions

Reading goes along the tokens and puts nodes together from what it has read. A token is shifted: it
is consumed, and nothing else. Nodes are reduced: all that were read since some token come to stand
below a new one, which begins with that token or with the first of them, and which ends with the
token consumed last. `Built before places after` says that shifts and reductions lead from one state
to another, and which nodes they leave side by side, each with the place that it is for.

What is true of all nodes that are read is shown along these steps, without the functions that take
them. So the nodes left are the roots of a forest of all nodes that were added (`Built.forest`).
-/

namespace Pins.Parser

/-- Where a node begins that is read since a state: with the first token then, or with the first
node below it. -/
inductive Opens (base state : ParserState) (kind : NodeKind) : Text.Span → Prop where
  | token : Opens base state kind base.stream.current.span
  | operand {place : Place} {left : NodeId} {others : List (Place × NodeId)}
      (hp : kind.places = (place, left) :: others) :
      Opens base state kind (state.arena.span left)

/-- Shifts and reductions lead from a state to another one, and leave nodes for some places. -/
inductive Built : ParserState → List (Place × NodeId) → ParserState → Prop where
  | rest (state : ParserState) : Built state [] state
  /-- A token is consumed that is not the end token. -/
  | shift {before state : ParserState} {places : List (Place × NodeId)}
      (h : Built before places state) (hk : state.stream.current.kind ≠ .eof) :
      Built before places (behind state)
  /-- What was read since a state, of which at least one token, becomes one node. -/
  | reduce {before base state : ParserState} {places : List (Place × NodeId)} {place : Place}
      {kind : NodeKind} {opening : Text.Span} (h : Built before places base)
      (hbelow : Built base kind.places state) (hleft : state.left < base.left)
      (hopens : Opens base state kind opening) (hadmits : place.admits kind = true)
      (hregular : kind.isRegular = true) :
      Built before (places ++ [(place, state.arena.nextId)])
        { state with arena := state.arena.push ⟨kind, opening.through state.stream.previous⟩ }

namespace Built

variable {before between after : ParserState} {places others : List (Place × NodeId)} {id : NodeId}
  {kind : NodeKind}

/-- Steps are taken one behind the other. -/
theorem trans (hf : Built before places between) (hs : Built between others after) :
    Built before (places ++ others) after := by
  induction hs with
  | rest =>
    rw [List.append_nil]
    exact hf
  | shift _ hk ih => exact (ih hf).shift hk
  | reduce _ hbelow hleft hopens hadmits hregular ih _ =>
    rw [← List.append_assoc]
    exact (ih hf).reduce hbelow hleft hopens hadmits hregular

/-- Shifts and reductions are moves. -/
theorem onward (h : Built before places after) : Onward before after := by
  induction h with
  | rest => exact .refl
  | shift _ _ ih => exact ih.tail (.consume _)
  | reduce _ _ _ _ _ _ ih ihbelow => exact (ih.trans ihbelow).tail (.push _ _)

/-- The nodes that were there before keep their kinds. -/
theorem kept (h : Built before places after) (hk : before.arena.kind? id = some kind) :
    after.arena.kind? id = some kind := by
  obtain ⟨node, hnode, rfl⟩ := Option.map_eq_some_iff.mp hk
  exact Option.map_eq_some_iff.mpr ⟨node, h.onward.kept hnode, rfl⟩

/-- The nodes that were added are those of the subtrees left. -/
theorem forest (h : Built before places after) :
    after.arena.Forest before.arena.size places after.arena.size := by
  induction h with
  | rest => exact .nil _
  | shift _ _ ih => exact ih
  | @reduce before base state places place kind opening _ hbelow _ _ hadmits hregular ih ihbelow =>
    let node : Node := ⟨kind, opening.through state.stream.previous⟩
    have hkept : ∀ id found, state.arena.kind? id = some found →
        (state.arena.push node).kind? id = some found := by
      intro id found hfound
      rw [Arena.kind?, Arena.node?_push_of_lt (Arena.index_lt_size hfound)]
      exact hfound
    have hnew : (state.arena.push node).kind? state.arena.nextId = some kind := by
      rw [Arena.kind?, Arena.node?_push_nextId]
      rfl
    rw [Arena.size_push]
    refine Arena.forest_append_iff.mpr ⟨base.arena.size, ?_, ?_⟩
    · exact ih.of_kind_eq fun id found hfound => hkept id found (hbelow.kept hfound)
    · exact .cons hnew hadmits hregular (ihbelow.of_kind_eq hkept) (.nil _)

end Built

end Pins.Parser
