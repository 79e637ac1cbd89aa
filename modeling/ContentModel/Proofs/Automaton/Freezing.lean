import ContentModel.Proofs.Automaton.Listing
import ContentModel.Proofs.Automaton.Ownership
import ContentModel.Proofs.Automaton.SameLanguage

/-!
# What is seen before and after freezing

A word can be read through the store, through the published automata and from
position to position. Only the last of these never asks whether a node is in
use. Main statement: where every node that can be reached is in use, none of
the three fails and all of them see the same nodes, and the listings are the
same (`Intact.unaltered`).
-/

namespace ContentModel.Automaton

/-! ## What a walk shows -/

/-- A node that a walk visits. -/
structure Sight where
  id : Nat
  node : Node
  deriving DecidableEq

/-- The nodes that a word visits, and whether the whole word was read and ends
in an accepting node. -/
structure Tour where
  sights : List Sight
  accepted : Bool
  deriving DecidableEq

/-- A walk, with a look at every node on its way. -/
def Reader.tour (reader : Reader) (id : Nat) (word : List String) :
    Except Fault Tour := do
  let walk ← reader.walk id word
  let sights ← walk.path.mapM fun visited =>
    return ⟨visited, ← reader.read visited⟩
  return ⟨sights, walk.accepted⟩

namespace Position

def sight (position : Position) : Sight :=
  ⟨position.id, position.view⟩

/-- A walk from position to position, with a look at each of them. -/
def tour (position : Position) (word : List String) : Tour :=
  let (path, accepted) := position.walk word
  ⟨path.map sight, accepted⟩

end Position

namespace Store

variable {store : Store} {start : Nat}

/-! ## Walks -/

/-- A reader that has the nodes of a walk sees what the positions show. -/
theorem tour_eq {reader : Reader} {walk : Walk} {word : List String}
    (isWalk : store.reader.walk start word = .ok walk)
    (sameWalk : reader.walk start word = .ok walk)
    (kept : ∀ id node, store.node id = .ok node →
      reader.read id = .ok node) :
    reader.tour start word =
      .ok (Position.tour ⟨store.freeze, start⟩ word) := by
  have each : ∀ visited ∈ walk.path,
      (do return (⟨visited, ← reader.read visited⟩ : Sight)) =
        (.ok (Position.sight ⟨store.freeze, visited⟩) :
          Except Fault Sight) := by
    intro visited onPath
    obtain ⟨node, found⟩ := Reader.read_of_mem_path isWalk visited onPath
    rw [kept visited node found, Position.sight, view_position found]
    rfl
  have shown : Position.tour ⟨store.freeze, start⟩ word =
      ⟨(walk.path.map (Position.mk store.freeze)).map Position.sight,
        walk.accepted⟩ := by
    rw [Position.tour, walk_position isWalk]
  rw [Reader.tour, sameWalk, ok_bind, mapM_eq_ok_of_forall each, shown,
    List.map_map]
  rfl

/-! ## Listings -/

/-- What a listing shows of the node of a number. -/
def outline (store : Store) (id : Nat) : Outline Nat :=
  let node := Position.view ⟨store.freeze, id⟩
  ⟨node.accepting, node.role, node.transitions⟩

/-- A reader that has the nodes which are reached draws them under their own
numbers. -/
theorem Intact.draws (intact : store.Intact start) {reader : Reader}
    (kept : ∀ id node, store.node id = .ok node →
      reader.read id = .ok node)
    (bounds : reader.Bounds) :
    reader.Draws store.outline {id | store.Reaches start id} id where
  injective := Set.injOn_id _
  closed id reaches name next leads := by
    obtain ⟨node, found⟩ := intact id reaches
    rw [outline, view_position found] at leads
    have isTarget : next ∈ node.targets :=
      (node.transitions.mem_values_iff next).mpr ⟨name, leads⟩
    exact Reaches.next reaches ⟨node, found, isTarget⟩
  node id reaches := by
    obtain ⟨node, found⟩ := intact id reaches
    refine ⟨node, kept id node found, ?_⟩
    rw [outline, view_position found]
    exact ⟨rfl, rfl, fun name => Option.map_id'.symm⟩
  lt_size id reaches := by
    obtain ⟨node, found⟩ := intact id reaches
    exact bounds id node (kept id node found)

/-- Freezing does not alter the listing of an automaton. -/
theorem Intact.exists_listing (intact : store.Intact start) :
    ∃ text, store.listing start = .ok text ∧
      store.freeze.listing start = .ok text := by
  have before := intact.draws (fun _ _ found => found) (bounds_reader store)
  have after := intact.draws (fun _ _ found => node_freeze found)
    (bounds_freeze store)
  exact Reader.exists_listing_mirrored before after
    (store.reaches_start start)

/-! ## All that is seen -/

/-- Where every node that is reached is in use, nothing fails: a word is read
alike in the store, in the published automata and from their position, past the
same nodes, and the listing stays the same. -/
theorem Intact.unaltered (intact : store.Intact start) :
    ∃ position : Position, store.freeze.position start = .ok position ∧
      (∀ word, ∃ tour,
        store.reader.tour start word = .ok tour ∧
        store.freeze.reader.tour start word = .ok tour ∧
        position.tour word = tour) ∧
      ∃ text, store.listing start = .ok text ∧
        store.freeze.listing start = .ok text ∧
        position.listing = .ok text := by
  obtain ⟨node, found⟩ := intact start (store.reaches_start start)
  refine ⟨_, position_freeze found, ?_, ?_⟩
  · intro word
    obtain ⟨walk, isWalk⟩ := intact.safe word
    have frozenWalk : store.freeze.reader.walk start word = .ok walk :=
      (walk_freeze intact.safe word).trans isWalk
    refine ⟨_, ?_, ?_, rfl⟩
    · exact tour_eq isWalk isWalk fun _ _ isNode => isNode
    · exact tour_eq isWalk frozenWalk fun _ _ isNode => node_freeze isNode
  · obtain ⟨text, before, after⟩ := intact.exists_listing
    exact ⟨text, before, after, after⟩

/-- Both shared nodes have a step in their tables, which no walk takes. -/
def strayTables : Store where
  slots :=
    #[⟨1, true,
        { transitions :=
            (AtomMap.insert ∅ (.ofElement "a") 1).insert (.ofElement "b") 2 }⟩,
      ⟨2, true,
        { freshAny with
          transitions := AtomMap.insert ∅ (.ofElement "c") 0 }⟩,
      ⟨3, true,
        { freshEmpty with
          transitions := AtomMap.insert ∅ (.ofElement "c") 0 }⟩]
  sharedAny := some 1
  sharedEmpty := some 2
  issued := 3

theorem reached_strayTables : strayTables.Reached := by
  have made : Reached _ := .emptyNode (.anyNode (.alloc .new))
  have toAny : Reached _ := .setTransition made
    (show Store.setTransition _ 0 (.ofElement "a") 1 = .ok (none, _) from rfl)
  have toEmpty : Reached _ := .setTransition toAny
    (show Store.setTransition _ 0 (.ofElement "b") 2 = .ok (none, _) from rfl)
  have fromAny : Reached _ := .setTransition toEmpty
    (show Store.setTransition _ 1 (.ofElement "c") 0 = .ok (none, _) from rfl)
  exact .setTransition fromAny
    (show Store.setTransition _ 2 (.ofElement "c") 0 =
      .ok (none, strayTables) from rfl)

theorem Intact.unaltered_strayTables :
    strayTables.Intact 0 ∧
    ∃ position : Position,
      strayTables.freeze.position 0 = .ok position ∧
      (∀ word, ∃ tour,
        strayTables.reader.tour 0 word = .ok tour ∧
        strayTables.freeze.reader.tour 0 word = .ok tour ∧
        position.tour word = tour) ∧
      (∃ text, strayTables.listing 0 = .ok text ∧
        strayTables.freeze.listing 0 = .ok text ∧
        position.listing = .ok text) ∧
      (position.tour ["a", "c"]).sights.map Sight.id = [0, 1, 1] ∧
      (position.tour ["b", "c"]).sights.map Sight.id = [0, 2] := by
  have intact := reached_strayTables.intact rfl (by decide : 0 < 3)
  obtain ⟨position, isPosition, tours, listings⟩ := intact.unaltered
  have same : strayTables.freeze.position 0 =
      .ok ⟨strayTables.freeze, 0⟩ := rfl
  rw [same] at isPosition
  cases isPosition
  exact ⟨intact, _, same, tours, listings, rfl, rfl⟩

end Store

end ContentModel.Automaton
