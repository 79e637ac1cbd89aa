import ContentModel.Fragment.Graph
import Std.Data.TreeMap

/-!
# Copies of fragments

A copy of a fragment has a fresh point for every point that a walk through the
fragment can meet. Edges that leave the exit are not part of the fragment, so a
fragment can be copied after it was built into a larger one.
-/

namespace ContentModel

/-- A copy in progress. -/
structure Copying where
  graph : FragmentGraph
  /-- The copy of each point met so far. -/
  copies : Std.TreeMap Nat Nat compare := ∅
  /-- The points met so far, the latest first. -/
  trail : List Nat := []

namespace Copying

/-- Makes a fresh point for every point that can be met from those that wait,
depth first and without leaving through `exit`. `room` bounds how many points
can still be met. -/
def meet (exit : Nat) : Nat → List Nat → Copying → Except Fault Copying
  | room, waiting, copying =>
    match waiting.dropWhile copying.copies.contains with
    | [] => .ok copying
    | id :: rest =>
      match copying.graph.point id, room with
      | .error fault, _ => .error fault
      | .ok _, 0 => .ok copying
      | .ok point, room + 1 =>
        let (copy, graph) := copying.graph.addPoint { atom := point.atom }
        meet exit room
          ((if id = exit then [] else point.successors) ++ rest)
          ⟨graph, copying.copies.insert id copy, id :: copying.trail⟩

def copyOf (copying : Copying) (id : Nat) : Except Fault Nat :=
  match copying.copies[id]? with
  | some copy => .ok copy
  | none => .error (.unreachedPoint id)

/-- Leads the copies of the given points to the copies of their successors.
The copy of the exit leads nowhere. -/
def wire (exit : Nat) : List Nat → Copying → Except Fault Copying
  | [], copying => .ok copying
  | id :: rest, copying =>
    if id = exit then
      wire exit rest copying
    else do
      let point ← copying.graph.point id
      let targets ← point.successors.mapM copying.copyOf
      let copy ← copying.copyOf id
      wire exit rest
        { copying with graph := copying.graph.setSuccessors copy targets }

end Copying

namespace FragmentGraph

def duplicate (graph : FragmentGraph) (fragment : Fragment) :
    Except Fault (Fragment × FragmentGraph) := do
  let met ← Copying.meet fragment.exit (graph.edgeCount + 1) [fragment.entry]
    ⟨graph, ∅, []⟩
  let wired ← Copying.wire fragment.exit met.trail.reverse met
  let entry ← wired.copyOf fragment.entry
  let exit ← wired.copyOf fragment.exit
  return (⟨entry, exit⟩, wired.graph)

end FragmentGraph

end ContentModel
