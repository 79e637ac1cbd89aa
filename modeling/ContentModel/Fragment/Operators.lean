import ContentModel.Fragment.Copy
import ContentModel.Occurs

/-!
# Operators on fragments

Every operator of content models has a fragment built from the fragments of its
operands. New edges start only at new points and at the exits of operands.
-/

namespace ContentModel.FragmentGraph

/-! ## Single points and groups -/

def leaf (graph : FragmentGraph) (atom : Atom) : Fragment × FragmentGraph :=
  let (id, graph) := graph.addMatcher atom
  (.single id, graph)

def nothing (graph : FragmentGraph) : Fragment × FragmentGraph :=
  let (id, graph) := graph.addEpsilon
  (.single id, graph)

/-- Two fresh points that read nothing: one at which walks part and one at which
they meet. -/
def fork (graph : FragmentGraph) : (Nat × Nat) × FragmentGraph :=
  let (choice, graph) := graph.addEpsilon
  let (join, graph) := graph.addEpsilon
  ((choice, join), graph)

def concat (graph : FragmentGraph) (first second : Fragment) :
    Except Fault (Fragment × FragmentGraph) := do
  let graph ← graph.connect first.exit second.entry
  return (⟨first.entry, second.exit⟩, graph)

def concatAll (graph : FragmentGraph) (first : Fragment) :
    List Fragment → Except Fault (Fragment × FragmentGraph)
  | [] => .ok (first, graph)
  | second :: rest => do
    let (joined, graph) ← graph.concat first second
    graph.concatAll joined rest

/-- Fragments one after the other; without any, nothing is read. -/
def sequence (graph : FragmentGraph) :
    List Fragment → Except Fault (Fragment × FragmentGraph)
  | [] => .ok graph.nothing
  | first :: rest => graph.concatAll first rest

/-- Leads the exits of fragments to one point. -/
def joinAll (graph : FragmentGraph) (join : Nat) :
    List Fragment → Except Fault FragmentGraph
  | [] => .ok graph
  | member :: rest => do
    let graph ← graph.connect member.exit join
    graph.joinAll join rest

/-- A choice between fragments. A single one stays as it is; without any,
nothing is read. -/
def alternation (graph : FragmentGraph) :
    List Fragment → Except Fault (Fragment × FragmentGraph)
  | [] => .ok graph.nothing
  | [member] => .ok (member, graph)
  | members => do
    let ((choice, join), graph) := graph.fork
    let graph ← graph.connectAll choice (members.map Fragment.entry)
    let graph ← graph.joinAll join members
    return (⟨choice, join⟩, graph)

/-! ## Repetition -/

def optional (graph : FragmentGraph) (inner : Fragment) :
    Except Fault (Fragment × FragmentGraph) := do
  let ((choice, join), graph) := graph.fork
  let graph ← graph.connectAll choice [inner.entry, join]
  let graph ← graph.connect inner.exit join
  return (⟨choice, join⟩, graph)

/-- Any number of times: after each time the walk is back at the start. -/
def zeroOrMore (graph : FragmentGraph) (inner : Fragment) :
    Except Fault (Fragment × FragmentGraph) := do
  let ((choice, join), graph) := graph.fork
  let graph ← graph.connectAll choice [inner.entry, join]
  let graph ← graph.connect inner.exit choice
  return (⟨choice, join⟩, graph)

/-- At least once: after each time the walk starts again or is done. -/
def oneOrMore (graph : FragmentGraph) (inner : Fragment) :
    Except Fault (Fragment × FragmentGraph) := do
  let ((choice, join), graph) := graph.fork
  let graph ← graph.connect inner.exit choice
  let graph ← graph.connectAll choice [inner.entry, join]
  return (⟨inner.entry, join⟩, graph)

/-- A fragment to build in: the given one for the first time, then copies. -/
def take (graph : FragmentGraph) (inner : Fragment) (used : Nat) :
    Except Fault (Fragment × FragmentGraph) :=
  if used = 0 then .ok (inner, graph) else graph.duplicate inner

/-- So many fragments to build in, when `used` were used before. -/
def takeMany (graph : FragmentGraph) (inner : Fragment) :
    (count used : Nat) → Except Fault (List Fragment × FragmentGraph)
  | 0, _ => .ok ([], graph)
  | count + 1, used => do
    let (first, graph) ← graph.take inner used
    let (rest, graph) ← graph.takeMany inner count (used + 1)
    return (first :: rest, graph)

/-- Puts further optional occurrences around those of `tail`, the innermost
first: `count` of them, when `used` fragments were used before. -/
def nestOptional (graph : FragmentGraph) (inner : Fragment) :
    (count used : Nat) → (tail : Option Fragment) →
      Except Fault (Option Fragment × FragmentGraph)
  | 0, _, tail => .ok (tail, graph)
  | count + 1, used, tail => do
    let (copy, graph) ← graph.take inner used
    let (body, graph) ←
      match tail with
      | some rest => graph.concat copy rest
      | none => .ok (copy, graph)
    let (nested, graph) ← graph.optional body
    graph.nestOptional inner count (used + 1) (some nested)

/-- At least `min` times and at most `max` times: as many occurrences as are
needed, followed by any number of them or by nested optional ones. -/
def bounded (graph : FragmentGraph) (inner : Fragment) (min : Nat)
    (max : Option Nat) : Except Fault (Fragment × FragmentGraph) :=
  if max = some 0 then
    .ok graph.nothing
  else do
    let (needed, graph) ← graph.takeMany inner min 0
    match max with
    | none =>
      let (copy, graph) ← graph.take inner min
      let (loop, graph) ← graph.zeroOrMore copy
      graph.sequence (needed ++ [loop])
    | some max =>
      let (tail, graph) ← graph.nestOptional inner (max - min) min none
      graph.sequence (needed ++ tail.toList)

/-- As often as the bounds say. The common bounds have operators of their
own. -/
def occurring (graph : FragmentGraph) (body : Fragment) (occurs : Occurs) :
    Except Fault (Fragment × FragmentGraph) :=
  match occurs.cardinality with
  | .one => .ok (body, graph)
  | .optional => graph.optional body
  | .zeroOrMore => graph.zeroOrMore body
  | .oneOrMore => graph.oneOrMore body
  | .never => .ok graph.nothing
  | .bounded min max => graph.bounded body min max

end ContentModel.FragmentGraph
