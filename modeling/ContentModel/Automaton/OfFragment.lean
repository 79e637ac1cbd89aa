import ContentModel.Automaton.Subset
import ContentModel.Fragment.Graph

/-!
# Automata of fragments

A state of the automaton of a fragment is the set of points at which a walk may
read its next atom, together with the mark `pastExit` where a walk may be done.
A set is written in ascending order, and no point has so large a number as the
mark. Points that read nothing do not occur in a set.
-/

namespace ContentModel

namespace FragmentGraph

def readsAt (graph : FragmentGraph) (id : Nat) : Bool :=
  match graph.points[id]? with
  | some point => point.atom.isSome
  | none => false

/-- Where a walk through a fragment with this exit may go on from a point
without reading. -/
def silentSteps (graph : FragmentGraph) (exit id : Nat) :
    Except Fault (List Nat) :=
  if id = pastExit then
    .ok []
  else
    match graph.point id with
    | .error fault => .error fault
    | .ok point =>
      if point.isEpsilon && id != exit then .ok point.successors else .ok []

/-- What a set holds for a point that walks come to: the point if it reads, the
mark at the exit, and nothing where walks only pass. -/
def memberAt (graph : FragmentGraph) (exit id : Nat) : Option Nat :=
  if id = pastExit then
    some pastExit
  else if graph.readsAt id then
    some id
  else if id = exit then
    some pastExit
  else
    none

/-- The set of points at which a walk from one of `starts` may read next, and
the mark if it may pass the exit before. -/
def closure (graph : FragmentGraph) (exit : Nat) (starts : List Nat) :
    Except Fault (List Nat) := do
  let met ←
    Search.depthFirst (graph.size + 2) (graph.silentSteps exit) starts
  let members := met.ascending.filterMap (graph.memberAt exit)
  return (Std.TreeSet.ofList members).toList

/-- Where a walk may go on after it has read at a point of the set. The exit
leads past itself. -/
def readingSteps (graph : FragmentGraph) (exit : Nat) :
    List Nat → AtomMap (List Nat) → Except Fault (AtomMap (List Nat))
  | [], targets => .ok targets
  | id :: rest, targets =>
    if id = pastExit then
      graph.readingSteps exit rest targets
    else
      match graph.point id with
      | .error fault => .error fault
      | .ok point =>
        match point.atom with
        | none => graph.readingSteps exit rest targets
        | some atom =>
          let next := if id = exit then [pastExit] else point.successors
          graph.readingSteps exit rest <|
            targets.alter atom fun found => next ++ found.getD []

/-- What the state of a set is. It accepts if the mark stands last. -/
def setStep (graph : FragmentGraph) (exit : Nat) (set : List Nat) :
    Except Fault (Automaton.SubsetStep (List Nat)) := do
  let targets ← graph.readingSteps exit set ∅
  let edges ← targets.entries.mapM fun (atom, starts) => do
    return (atom, ← graph.closure exit starts)
  return .expand (set.getLast? == some pastExit) edges

end FragmentGraph

namespace Automaton.Store

def compile (store : Store) (graph : FragmentGraph) (fragment : Fragment) :
    Except Fault (Except StateLimitExceeded Nat × Store) := do
  let start ← graph.closure fragment.exit [fragment.entry]
  store.determinize start fun _ set => graph.setStep fragment.exit set

end Automaton.Store

end ContentModel
