import ContentModel.Automaton.Store

/-!
# Published automata

A store is frozen when all declarations are read: its numbers stay valid and
nothing changes any more. A position is a node of published automata; whether
the node is in use is asked once, when the first position is taken, and not on
the way to further ones.
-/

namespace ContentModel.Automaton

/-- A node as it is published, with what its slot says of it. -/
structure GraphNode where
  serial : Nat
  accepting : Bool
  isAny : Bool
  isEmpty : Bool
  /-- Whether the slot was in use when the store was frozen. -/
  live : Bool
  transitions : Transitions
  deriving DecidableEq

instance : Inhabited GraphNode :=
  ⟨⟨0, false, false, false, false, ∅⟩⟩

def GraphNode.ofSlot (slot : Slot) : GraphNode where
  serial := slot.serial
  accepting := slot.node.accepting
  isAny := slot.node.isAny
  isEmpty := slot.node.isEmpty
  live := slot.live
  transitions := slot.node.transitions

/-- The part that a walk, a comparison or a listing reads. -/
def GraphNode.view (node : GraphNode) : Node where
  accepting := node.accepting
  isAny := node.isAny
  isEmpty := node.isEmpty
  transitions := node.transitions

theorem GraphNode.view_ofSlot (slot : Slot) : (ofSlot slot).view = slot.node :=
  rfl

/-- Automata that change no more. -/
structure FrozenStore where
  nodes : Array GraphNode
  deriving DecidableEq

instance : Inhabited FrozenStore :=
  ⟨⟨#[]⟩⟩

/-- Publishes the automata of a store. Freed slots stay where they are, so that
numbers stay valid. -/
def Store.freeze (store : Store) : FrozenStore :=
  ⟨(store.slots.toList.map GraphNode.ofSlot).toArray⟩

/-- A node of published automata. -/
structure Position where
  store : FrozenStore
  id : Nat
  deriving DecidableEq

namespace FrozenStore

def graphNode (store : FrozenStore) (id : Nat) : Except Fault GraphNode :=
  match store.nodes[id]? with
  | some node => if node.live then .ok node else .error (.strayNode id)
  | none => .error (.strayNode id)

def node (store : FrozenStore) (id : Nat) : Except Fault Node :=
  return (← store.graphNode id).view

def reader (store : FrozenStore) : Reader :=
  ⟨store.nodes.size, store.node⟩

def position (store : FrozenStore) (id : Nat) : Except Fault Position := do
  let _ ← store.graphNode id
  return ⟨store, id⟩

def advance (store : FrozenStore) (id : Nat) (name : String) :
    Except Fault (Option Nat) :=
  store.reader.advance id name

def isAccepting (store : FrozenStore) (id : Nat) : Except Fault Bool :=
  return (← store.graphNode id).accepting

def size (store : FrozenStore) : Nat :=
  store.nodes.countP (·.live)

def isEmpty (store : FrozenStore) : Bool :=
  !store.nodes.any (·.live)

def sameLanguage (store : FrozenStore) (left right : Nat) :
    Except Fault Bool :=
  store.reader.sameLanguage left right

def listing (store : FrozenStore) (start : Nat) : Except Fault String :=
  store.reader.listing start

end FrozenStore

namespace Position

/-- The node is not asked again whether it is in use. -/
def node (position : Position) : GraphNode :=
  position.store.nodes[position.id]?.getD default

def view (position : Position) : Node :=
  position.node.view

/-- Which node of its store this is, counted as they were handed out. -/
def serial (position : Position) : Nat :=
  position.node.serial

/-- The position to which `name` leads. -/
def advance (position : Position) (name : String) : Option Position :=
  let node := position.node
  if node.isAny then
    some position
  else if node.isEmpty then
    none
  else
    (node.transitions.find? name).map fun id => ⟨position.store, id⟩

/-- The atoms of the table, in order of name. It is empty also where every
name is accepted. -/
def accepts (position : Position) : List Atom :=
  position.node.transitions.atoms

/-- The atoms of the table with the positions to which they lead. -/
def follows (position : Position) : List (Atom × Position) :=
  position.node.transitions.entries.map fun (atom, id) =>
    (atom, ⟨position.store, id⟩)

/-- The positions that a word visits, and whether the whole word was read and
ends in an accepting node. -/
def walk (position : Position) : List String → List Position × Bool
  | [] => ([position], position.node.accepting)
  | name :: word =>
    match position.advance name with
    | none => ([position], false)
    | some next =>
      let (path, accepted) := next.walk word
      (position :: path, accepted)

def listing (position : Position) : Except Fault String :=
  position.store.listing position.id

def describe (position : Position) : String :=
  let node := position.node
  "Dfm \x7b id: DfmId(" ++ toString position.id ++
    "), accepting: " ++ toString node.accepting ++
    ", any: " ++ toString node.isAny ++
    ", empty: " ++ toString node.isEmpty ++
    ", transitions: " ++ toString node.transitions.size ++ " \x7d"

end Position

namespace FrozenStore

def walk (store : FrozenStore) (id : Nat) (word : List String) :
    Except Fault (List Position × Bool) :=
  return (← store.position id).walk word

end FrozenStore

end ContentModel.Automaton
