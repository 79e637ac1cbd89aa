import ContentModel.Automaton.Reader

/-!
# The store of automata under construction

All automata of a grammar share one store. A node is a numbered slot; a freed
slot waits in a pool and is handed out again, the last freed one first. Two
nodes are shared by all automata: one that accepts everything and one that
accepts the empty word alone.
-/

namespace ContentModel.Automaton

/-- A place for a node. -/
structure Slot where
  /-- How many nodes the store had handed out when this one was, itself
  included. Only the order counts: where several stores draw their numbers from
  one counter, the nodes of each bear larger numbers in the same order. -/
  serial : Nat
  /-- Whether the node is in use. -/
  live : Bool := true
  node : Node := {}
  deriving DecidableEq

instance : Inhabited Slot :=
  ⟨⟨0, false, {}⟩⟩

/-- A slot that is handed out again has a blank node. -/
def Slot.reset (slot : Slot) (serial : Nat) : Slot :=
  { slot with
    serial
    live := true
    node :=
      { slot.node with
        accepting := false
        isAny := false
        isEmpty := false
        transitions := ∅ } }

theorem Slot.reset_eq (slot : Slot) (serial : Nat) :
    slot.reset serial = { serial } :=
  rfl

/-- The number of nodes one construction may make if nothing else is said. -/
def defaultStateLimit : Nat :=
  4096

/-- The store of automata under construction. -/
structure Store where
  slots : Array Slot := #[]
  /-- The freed slots, the last freed one first. -/
  pool : List Nat := []
  /-- The shared node that accepts everything, once it was asked for. -/
  sharedAny : Option Nat := none
  /-- The shared node that accepts the empty word alone, once it was asked
  for. -/
  sharedEmpty : Option Nat := none
  /-- How many nodes one construction may make. -/
  stateLimit : Nat := defaultStateLimit
  /-- How often a freed slot was handed out again. -/
  reused : Nat := 0
  /-- How many nodes were handed out. -/
  issued : Nat := 0
  deriving DecidableEq

namespace Store

instance : Inhabited Store :=
  ⟨{}⟩

/-! ## The pool -/

def liveCount (store : Store) : Nat :=
  store.slots.size - store.pool.length

def pooledCount (store : Store) : Nat :=
  store.pool.length

/-- Hands out a blank node. -/
def alloc : Store → Nat × Store
  | ⟨slots, id :: pool, any, empty, limit, reused, issued⟩ =>
    (id,
      ⟨slots.modify id fun slot => slot.reset (issued + 1), pool, any, empty,
        limit, reused + 1, issued + 1⟩)
  | ⟨slots, [], any, empty, limit, reused, issued⟩ =>
    let slot : Slot := { serial := issued + 1 }
    (slots.size,
      ⟨slots.push slot, [], any, empty, limit, reused, issued + 1⟩)

def slot (store : Store) (id : Nat) : Except Fault Slot :=
  match store.slots[id]? with
  | some slot => if slot.live then .ok slot else .error (.freedNode id)
  | none => .error (.unknownNode id)

def node (store : Store) (id : Nat) : Except Fault Node :=
  return (← store.slot id).node

def modifyNode (store : Store) (id : Nat) (change : Node → Node) : Store :=
  { store with
    slots := store.slots.modify id fun slot =>
      { slot with node := change slot.node } }

/-- Puts the slot of a live node into the pool. Its table is emptied, and a
shared node that is put away is shared no longer. -/
def recycle (store : Store) (id : Nat) : Store :=
  { store with
    slots := store.slots.modify id fun slot =>
      { slot with
        live := false
        node := { slot.node with transitions := ∅ } }
    sharedAny :=
      if store.sharedAny = some id then none else store.sharedAny
    sharedEmpty :=
      if store.sharedEmpty = some id then none else store.sharedEmpty
    pool := id :: store.pool }

def free (store : Store) (id : Nat) : Except Fault Store := do
  let _ ← store.slot id
  return store.recycle id

def isShared (store : Store) (id : Nat) : Bool :=
  store.sharedAny == some id || store.sharedEmpty == some id

/-- The nodes that can be reached from `start` without entering a shared node,
in ascending order. -/
def owned (store : Store) (start : Nat) : Except Fault (List Nat) := do
  let targets (id : Nat) : Except Fault (List Nat) :=
    if store.isShared id then return []
    else return (← store.node id).targets.reverse
  let visited ← Search.depthFirst (store.slots.size + 1) targets [start]
  return visited.ascending.filter fun id => !store.isShared id

/-- Frees every node that can be reached from `start` without entering a shared
node, and counts them. -/
def release (store : Store) (start : Nat) : Except Fault (Nat × Store) := do
  let owned ← store.owned start
  return (owned.length, owned.foldl recycle store)

/-! ## Nodes -/

def setAccepting (store : Store) (id : Nat) (accepting : Bool) :
    Except Fault Store := do
  let _ ← store.slot id
  return store.modifyNode id fun node => { node with accepting }

/-- Enters a step of a node, and gives the target that this replaces. -/
def setTransition (store : Store) (id : Nat) (atom : Atom) (target : Nat) :
    Except Fault (Option Nat × Store) := do
  let _ ← store.slot target
  let node ← store.node id
  let (replaced, transitions) := node.transitions.set atom target
  return (replaced, store.modifyNode id fun node => { node with transitions })

def anyNode (store : Store) : Nat × Store :=
  match store.sharedAny with
  | some id => (id, store)
  | none =>
    let (id, store) := store.alloc
    let store := store.modifyNode id fun node =>
      { node with isAny := true, accepting := true }
    (id, { store with sharedAny := some id })

def emptyNode (store : Store) : Nat × Store :=
  match store.sharedEmpty with
  | some id => (id, store)
  | none =>
    let (id, store) := store.alloc
    let store := store.modifyNode id fun node =>
      { node with isEmpty := true, accepting := true }
    (id, { store with sharedEmpty := some id })

/-! ## Reading -/

def reader (store : Store) : Reader :=
  ⟨store.slots.size, store.node⟩

def advance (store : Store) (id : Nat) (name : String) :
    Except Fault (Option Nat) :=
  store.reader.advance id name

def walk (store : Store) (id : Nat) (word : List String) :
    Except Fault Walk :=
  store.reader.walk id word

def sameLanguage (store : Store) (left right : Nat) : Except Fault Bool :=
  store.reader.sameLanguage left right

def listing (store : Store) (start : Nat) : Except Fault String :=
  store.reader.listing start

end Store

end ContentModel.Automaton
