/-!
# Faults

A fault is a misuse that no result can stand for: a node used after it was
freed, a child added to a list that was already read. Failures that a caller is
expected to meet, such as a construction that grows too large, are results and
not faults.
-/

namespace ContentModel

/-- The misuses that end a computation. -/
inductive Fault where
  /-- The automaton node was freed and not handed out again. -/
  | freedNode (id : Nat)
  /-- The store never handed out this node. -/
  | unknownNode (id : Nat)
  /-- The published automata hold no live node of this number. -/
  | strayNode (id : Nat)
  /-- A model node would have to occur at least `min` and at most `max < min`
  times. -/
  | invertedBounds (min max : Nat)
  /-- A child was given to a leaf, which is written `leaf`. -/
  | childOfLeaf (leaf : String)
  /-- A child was added to a list of children that was already read. -/
  | frozenChildren
  /-- A node that has children was to become a leaf. -/
  | leafWithChildren
  /-- A model node stands below itself. -/
  | endlessDraft (id : Nat)
  /-- The fragment graph has no point of this number. -/
  | missingPoint (id : Nat)
  /-- A walk that has to copy a fragment never meets this point. -/
  | unreachedPoint (id : Nat)
  deriving DecidableEq, Repr

namespace Fault

def message : Fault → String
  | .freedNode id =>
    s!"DfmBuilder: node #{id} is not live (freed twice or used after free)"
  | .unknownNode id =>
    s!"DfmBuilder: node #{id} was never allocated by this store"
  | .strayNode id =>
    s!"DfmGraph: node #{id} is not part of this graph " ++
      "(ids are only valid for the graph they were compiled into)"
  | .invertedBounds min max =>
    s!"Model: occurrence bounds {min}..{max} are inverted"
  | .childOfLeaf leaf =>
    s!"Model: leaf `{leaf}` cannot have children"
  | .frozenChildren =>
    "Model: add_child after the child list was read"
  | .leafWithChildren =>
    "Model: a node with children cannot become a leaf"
  | .endlessDraft id =>
    s!"content model: node {id} stands below itself"
  | .missingPoint id =>
    s!"fragment graph: no point N{id}"
  | .unreachedPoint id =>
    s!"fragment graph: N{id} is not part of the copied fragment"

end Fault

end ContentModel
