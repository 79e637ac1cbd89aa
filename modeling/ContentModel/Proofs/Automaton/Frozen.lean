import ContentModel.Automaton.Frozen
import ContentModel.Proofs.Automaton.Walk

/-!
# Walks through published automata

Positions are not checked on the way. A walk that would not fail before the
store was frozen comes to the same nodes afterwards, and all of them are in
use.
-/

namespace ContentModel.Automaton

namespace FrozenStore

/-- The node is in use. -/
def Live (store : FrozenStore) (id : Nat) : Prop :=
  ∃ node, store.node id = .ok node

theorem graphNode_eq_ok_iff (store : FrozenStore) (id : Nat)
    (node : GraphNode) :
    store.graphNode id = .ok node ↔
      store.nodes[id]? = some node ∧ node.live = true := by
  rw [graphNode]
  cases store.nodes[id]? with
  | none =>
      simp
  | some found =>
      by_cases live : found.live = true
      · simp only [live, if_true, Except.ok.injEq, Option.some.injEq]
        constructor
        · intro same
          exact ⟨same, same ▸ live⟩
        · intro same
          exact same.1
      · simp only [if_neg live, reduceCtorEq, Option.some.injEq, false_iff]
        intro same
        exact live (same.1 ▸ same.2)

theorem node_eq_ok_iff (store : FrozenStore) (id : Nat) (node : Node) :
    store.node id = .ok node ↔
      ∃ graphNode, store.nodes[id]? = some graphNode ∧
        graphNode.live = true ∧ graphNode.view = node := by
  rw [FrozenStore.node, bind_eq_ok_iff]
  constructor
  · intro read
    obtain ⟨graphNode, found, same⟩ := read
    obtain ⟨present, live⟩ := (graphNode_eq_ok_iff store id graphNode).mp found
    exact ⟨graphNode, present, live, Except.ok.inj same⟩
  · intro read
    obtain ⟨graphNode, present, live, same⟩ := read
    have found := (graphNode_eq_ok_iff store id graphNode).mpr ⟨present, live⟩
    exact ⟨graphNode, found, congrArg Except.ok same⟩

end FrozenStore

namespace Position

/-- A step from a position is one of its node. -/
theorem advance_eq (position : Position) (name : String) :
    position.advance name =
      (position.view.advance position.id name).map
        (Position.mk position.store) := by
  rw [advance, Node.advance]
  by_cases isAny : position.node.isAny
  · rw [if_pos isAny, if_pos (show position.view.isAny from isAny)]
    rfl
  rw [if_neg isAny, if_neg (show ¬position.view.isAny from isAny)]
  by_cases isEmpty : position.node.isEmpty
  · rw [if_pos isEmpty, if_pos (show position.view.isEmpty from isEmpty)]
    rfl
  · rw [if_neg isEmpty, if_neg (show ¬position.view.isEmpty from isEmpty)]
    rfl

end Position

namespace Store

variable {store : Store} {id : Nat}

/-- Each slot is published in its place. -/
theorem getElem?_freeze (store : Store) (id : Nat) :
    store.freeze.nodes[id]? = store.slots[id]?.map GraphNode.ofSlot := by
  rw [freeze, List.getElem?_toArray, List.getElem?_map, Array.getElem?_toList]

/-- The published nodes are those in use, each as it was. -/
theorem node_freeze_eq_ok_iff (store : Store) (id : Nat) (node : Node) :
    store.freeze.node id = .ok node ↔ store.node id = .ok node := by
  rw [FrozenStore.node_eq_ok_iff, node_eq_ok_iff, getElem?_freeze]
  constructor
  · intro published
    obtain ⟨graphNode, present, live, same⟩ := published
    obtain ⟨slot, isSlot, isNode⟩ := Option.map_eq_some_iff.mp present
    cases isNode
    exact ⟨slot, isSlot, live, same⟩
  · intro inUse
    obtain ⟨slot, isSlot, live, same⟩ := inUse
    rw [isSlot]
    exact ⟨GraphNode.ofSlot slot, rfl, live, same⟩

theorem node_freeze {node : Node} (found : store.node id = .ok node) :
    store.freeze.node id = .ok node :=
  (node_freeze_eq_ok_iff store id node).mpr found

theorem position_freeze {node : Node} (found : store.node id = .ok node) :
    store.freeze.position id = .ok ⟨store.freeze, id⟩ := by
  obtain ⟨graphNode, isNode, _⟩ := bind_eq_ok_iff.mp (node_freeze found)
  rw [FrozenStore.position, isNode]
  rfl

theorem view_position {node : Node} (found : store.node id = .ok node) :
    Position.view ⟨store.freeze, id⟩ = node := by
  obtain ⟨slot, present, _, same⟩ := (node_eq_ok_iff store id node).mp found
  rw [Position.view, Position.node, getElem?_freeze, present]
  exact (GraphNode.view_ofSlot slot).trans same

theorem advance_position {node : Node} (found : store.node id = .ok node)
    (name : String) :
    Position.advance ⟨store.freeze, id⟩ name =
      (node.advance id name).map (Position.mk store.freeze) := by
  rw [Position.advance_eq, view_position found]

theorem accepting_position {node : Node} (found : store.node id = .ok node) :
    (Position.node ⟨store.freeze, id⟩).accepting = node.accepting :=
  congrArg Node.accepting (view_position found)

theorem transitions_position {node : Node}
    (found : store.node id = .ok node) :
    (Position.node ⟨store.freeze, id⟩).transitions = node.transitions :=
  congrArg Node.transitions (view_position found)

/-- The walk through the published automata is the one before. -/
theorem walk_position {word : List String} {walk : Walk}
    (isWalk : store.reader.walk id word = .ok walk) :
    Position.walk ⟨store.freeze, id⟩ word =
      (walk.path.map (Position.mk store.freeze), walk.accepted) := by
  induction word generalizing id walk with
  | nil =>
      obtain ⟨node, found, same⟩ := Reader.exists_of_walk_nil isWalk
      rw [Position.walk, accepting_position found, same]
      rfl
  | cons name word inductionHypothesis =>
      obtain ⟨node, found, stops | goesOn⟩ :=
        Reader.exists_of_walk_cons isWalk
      · rw [Position.walk, advance_position found, stops.1, stops.2]
        rfl
      · obtain ⟨next, rest, leads, isRest, same⟩ := goesOn
        rw [Position.walk, advance_position found, leads, same]
        simp only [Option.map_some, inductionHypothesis isRest]
        rfl

/-- Where no walk fails, a position can be taken and its walks come to nodes in
use alone. -/
theorem Accepts.position {language : Language String}
    (accepts : store.Accepts id language) :
    store.freeze.position id = .ok ⟨store.freeze, id⟩ ∧
      ∀ word,
        (∀ visited ∈ (Position.walk ⟨store.freeze, id⟩ word).1,
          visited.store = store.freeze ∧ store.freeze.Live visited.id) ∧
        ((Position.walk ⟨store.freeze, id⟩ word).2 = true ↔
          word ∈ language) := by
  constructor
  · obtain ⟨walk, isWalk, _⟩ := accepts []
    obtain ⟨node, found, _⟩ := Reader.exists_of_walk_nil isWalk
    exact position_freeze found
  · intro word
    obtain ⟨walk, isWalk, accepted⟩ := accepts word
    rw [walk_position isWalk]
    refine ⟨?_, accepted⟩
    intro visited member
    obtain ⟨other, onPath, same⟩ := List.mem_map.mp member
    cases same
    obtain ⟨node, found⟩ := Reader.read_of_mem_path isWalk other onPath
    exact ⟨rfl, node, node_freeze found⟩

end Store

end ContentModel.Automaton
