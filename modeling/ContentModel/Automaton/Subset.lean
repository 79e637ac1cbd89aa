import ContentModel.Automaton.Store
import Std.Data.TreeMap

/-!
# The subset construction

States are given by keys, and a step function tells what the state of a key is:
the shared node that accepts everything, the shared node that accepts the empty
word alone, or a node of its own with a successor key for each atom. Equal keys
become one node. Nodes are made in the order in which their keys are met,
nearest to the start first, and a construction that makes more of them than the
store allows gives all of them back.
-/

namespace ContentModel.Automaton

universe u

/-- What the state of a key is. -/
inductive SubsetStep (κ : Type u) where
  | any
  | empty
  | expand (accepting : Bool) (edges : List (Atom × κ))
  deriving DecidableEq, Repr

/-- A construction in progress. -/
structure Construction (κ : Type u) [Ord κ] where
  store : Store
  /-- The nodes of the keys met so far. -/
  known : Std.TreeMap κ Nat compare := ∅
  /-- The nodes made so far with the edges they are to get, in the order in
  which they were made. -/
  states : Array (Nat × List (Atom × κ)) := #[]

namespace Construction

variable {κ : Type u} [Ord κ]

/-- The node of a key; it is made when the key is met for the first time. -/
def stateOf (step : Store → κ → Except Fault (SubsetStep κ)) (key : κ) :
    Construction κ → Except Fault (Nat × Construction κ)
  | ⟨store, known, states⟩ =>
    match known[key]? with
    | some id => .ok (id, ⟨store, known, states⟩)
    | none =>
      match step store key with
      | .error fault => .error fault
      | .ok .any =>
        let (id, store) := store.anyNode
        .ok (id, ⟨store, known.insert key id, states⟩)
      | .ok .empty =>
        let (id, store) := store.emptyNode
        .ok (id, ⟨store, known.insert key id, states⟩)
      | .ok (.expand accepting edges) =>
        let (id, store) := store.alloc
        let store := store.modifyNode id fun node => { node with accepting }
        .ok (id, ⟨store, known.insert key id, states.push (id, edges)⟩)

def connect (step : Store → κ → Except Fault (SubsetStep κ)) (source : Nat) :
    List (Atom × κ) → Construction κ → Except Fault (Construction κ)
  | [], construction => .ok construction
  | (atom, key) :: edges, construction =>
    match construction.stateOf step key with
    | .error fault => .error fault
    | .ok (target, ⟨store, known, states⟩) =>
      let store := store.modifyNode source fun node =>
        { node with transitions := node.transitions.insert atom target }
      connect step source edges ⟨store, known, states⟩

/-- Gives back every node made so far. -/
def abandon (construction : Construction κ) : Store :=
  construction.states.foldl (fun store state => store.recycle state.1)
    construction.store

/-- Gives the nodes made so far their edges, from the one at `position` on,
which may make further nodes. `room` is how many nodes may still come after
that one; the answer is whether that was enough. -/
def complete (step : Store → κ → Except Fault (SubsetStep κ)) :
    Nat → Nat → Construction κ → Except Fault (Bool × Construction κ)
  | room, position, construction =>
    match construction.states[position]? with
    | none => .ok (true, construction)
    | some (source, edges) =>
      match construction.connect step source edges, room with
      | .error fault, _ => .error fault
      | .ok construction, 0 => .ok (false, construction)
      | .ok construction, room + 1 =>
        if construction.states.size ≤ position + 1 + room then
          complete step room (position + 1) construction
        else
          .ok (false, construction)

end Construction

namespace Store

variable {κ : Type u} [Ord κ]

/-- Builds the automaton whose states are the keys that can be met from
`start`. Gives its start node, or the failure that it needs more nodes than the
store allows. -/
def determinize (store : Store) (start : κ)
    (step : Store → κ → Except Fault (SubsetStep κ)) :
    Except Fault (Except StateLimitExceeded Nat × Store) :=
  match Construction.stateOf step start ⟨store, ∅, #[]⟩ with
  | .error fault => .error fault
  | .ok (root, construction) =>
    match construction.complete step store.stateLimit 0 with
    | .error fault => .error fault
    | .ok (true, construction) => .ok (.ok root, construction.store)
    | .ok (false, construction) =>
      .ok (.error ⟨store.stateLimit⟩, construction.abandon)

end Store

end ContentModel.Automaton
