import ContentModel.Fragment.Operators
import ContentModel.Model

/-!
# Fragments of content models

A content model is turned into a fragment from its members outwards. What is
not filled in and what is an empty group has no fragment: in a sequence it
counts for nothing, and in a choice it is an alternative that reads nothing.
-/

namespace ContentModel.Model

mutual

/-- Adds the fragment of a model to a graph. -/
def fragment : Model → FragmentGraph →
    Except Fault (Option Fragment × FragmentGraph)
  | node particle children, graph =>
    match particle.kind, particle.atom with
    | .unknown, _ => .ok (none, graph)
    | .leaf, none => .ok (none, graph)
    | .leaf, some atom => do
      let (body, graph) := graph.leaf atom
      let (whole, graph) ← graph.occurring body particle.occurs
      return (some whole, graph)
    | .sequence, _ => do
      let (parts, graph) ← fragmentsOfParts children graph
      if parts.isEmpty then
        return (none, graph)
      else
        let (body, graph) ← graph.sequence parts
        let (whole, graph) ← graph.occurring body particle.occurs
        return (some whole, graph)
    | .choice, _ => do
      let (branches, graph) ← fragmentsOfBranches children graph
      if branches.isEmpty then
        return (none, graph)
      else
        let (body, graph) ← graph.alternation branches
        let (whole, graph) ← graph.occurring body particle.occurs
        return (some whole, graph)

/-- Adds the fragments of the parts of a sequence. -/
def fragmentsOfParts : List Model → FragmentGraph →
    Except Fault (List Fragment × FragmentGraph)
  | [], graph => .ok ([], graph)
  | part :: rest, graph => do
    let (first, graph) ← part.fragment graph
    let (parts, graph) ← fragmentsOfParts rest graph
    return (first.toList ++ parts, graph)

/-- Adds the fragments of the branches of a choice. -/
def fragmentsOfBranches : List Model → FragmentGraph →
    Except Fault (List Fragment × FragmentGraph)
  | [], graph => .ok ([], graph)
  | branch :: rest, graph => do
    let (first, graph) ← branch.fragment graph
    let (first, graph) :=
      match first with
      | some first => (first, graph)
      | none => graph.nothing
    let (branches, graph) ← fragmentsOfBranches rest graph
    return (first :: branches, graph)

end

end ContentModel.Model
