import ContentModel.Automaton.Subset

/-!
# The union of two automata

The union of two nodes is found by the subset construction on sets of existing
nodes, which are written as ascending lists. A set that holds a node accepting
everything accepts everything, and a set of nodes that accept the empty word
alone accepts the empty word alone.
-/

namespace ContentModel.Automaton

/-- What is known of a set of nodes after some of its members. -/
structure UnionTally where
  accepting : Bool := false
  allEmpty : Bool := true
  /-- The targets of each name, in no particular order. -/
  targets : AtomMap (List Nat) := ∅

namespace UnionTally

def addTarget (targets : AtomMap (List Nat)) (edge : Atom × Nat) :
    AtomMap (List Nat) :=
  targets.alter edge.1 fun found => edge.2 :: found.getD []

def add (tally : UnionTally) (node : Node) : UnionTally where
  accepting := tally.accepting || node.accepting
  allEmpty := tally.allEmpty && node.isEmpty
  targets := node.transitions.entries.foldl addTarget tally.targets

/-- What the set turns into. -/
def step (tally : UnionTally) : SubsetStep (List Nat) :=
  if tally.allEmpty then
    .empty
  else
    .expand tally.accepting <|
      tally.targets.entries.map fun (atom, targets) =>
        (atom, (Std.TreeSet.ofList targets).toList)

end UnionTally

namespace Store

/-- What the set of the given nodes turns into. A node that accepts everything
decides before later nodes are looked at. -/
def unionStep (store : Store) :
    UnionTally → List Nat → Except Fault (SubsetStep (List Nat))
  | tally, [] => .ok tally.step
  | tally, id :: rest =>
    match store.node id with
    | .error fault => .error fault
    | .ok node =>
      if node.isAny then .ok .any
      else store.unionStep (tally.add node) rest

/-- An automaton that accepts what either of two nodes accepts. The two nodes
stay as they are; a node and itself need no construction. -/
def merge (store : Store) (left right : Nat) :
    Except Fault (Except StateLimitExceeded Nat × Store) :=
  if left = right then
    .ok (.ok left, store)
  else
    store.determinize (if left < right then [left, right] else [right, left])
      fun store set => store.unionStep {} set

end Store

end ContentModel.Automaton
