import ContentModel.Automaton.OfModel

/-!
# Models under construction

A content model is put together node by node. The nodes stand on a workbench,
where they have numbers. The children that a node is given wait in a buffer.
When they are read for the first time the buffer is emptied into a list that is
fixed from then on, and a copy of the node shares that list: what is read below
one of the two is read below the other.

A reading goes down from a node as far as its answer needs, and fixes the
children of the nodes that it passes.
-/

namespace ContentModel

/-- A node of a model under construction. -/
structure DraftNode where
  particle : Particle := {}
  /-- The children that were added and not read yet. -/
  pending : List Nat := []
  /-- The children, since they were read for the first time. -/
  frozen : Option (List Nat) := none
  deriving DecidableEq, Repr

namespace DraftNode

instance : Inhabited DraftNode :=
  ⟨{}⟩

/-- The children, whether they were read or not. -/
def children (node : DraftNode) : List Nat :=
  match node.frozen with
  | some children => children
  | none => node.pending

/-- Whether the children were read. -/
def isFrozen (node : DraftNode) : Bool :=
  node.frozen.isSome

/-- Empties the buffer into the list of children, unless there is one. -/
def freeze (node : DraftNode) : DraftNode :=
  match node.frozen with
  | some _ => node
  | none => { node with pending := [], frozen := some node.pending }

@[simp] theorem particle_freeze (node : DraftNode) :
    node.freeze.particle = node.particle := by
  rw [freeze]
  split
  · rfl
  · rfl

@[simp] theorem children_freeze (node : DraftNode) :
    node.freeze.children = node.children := by
  obtain ⟨particle, pending, frozen⟩ := node
  cases frozen with
  | none => rfl
  | some children => rfl

@[simp] theorem isFrozen_freeze (node : DraftNode) :
    node.freeze.isFrozen = true := by
  obtain ⟨particle, pending, frozen⟩ := node
  cases frozen with
  | none => rfl
  | some children => rfl

/-- A buffer is emptied when the children are read. -/
theorem pending_freeze (node : DraftNode)
    (emptied : node.isFrozen = true → node.pending = []) :
    node.freeze.pending = [] := by
  obtain ⟨particle, pending, frozen⟩ := node
  cases frozen with
  | none => rfl
  | some children => exact emptied rfl

@[simp] theorem freeze_freeze (node : DraftNode) :
    node.freeze.freeze = node.freeze := by
  obtain ⟨particle, pending, frozen⟩ := node
  cases frozen with
  | none => rfl
  | some children => rfl

end DraftNode

/-- The nodes that are being worked on. -/
structure Workbench where
  nodes : Array DraftNode := #[]
  deriving DecidableEq

/-- What a node shows without being read. -/
structure DraftView where
  particle : Particle
  childCount : Nat
  /-- Whether its children were read. -/
  isFrozen : Bool
  deriving DecidableEq, Repr

namespace Workbench

instance : Inhabited Workbench :=
  ⟨{}⟩

def size (bench : Workbench) : Nat :=
  bench.nodes.size

def node (bench : Workbench) (id : Nat) : DraftNode :=
  bench.nodes[id]?.getD default

/-- Changes one node and leaves the others as they are. -/
def change (bench : Workbench) (id : Nat) (update : DraftNode → DraftNode) :
    Workbench :=
  ⟨bench.nodes.modify id update⟩

/-- Adds a node, and gives its number. -/
def put (bench : Workbench) (node : DraftNode) : Nat × Workbench :=
  (bench.size, ⟨bench.nodes.push node⟩)

/-- What a node shows without being read. -/
def view (bench : Workbench) (id : Nat) : DraftView :=
  let node := bench.node id
  ⟨node.particle, node.children.length, node.isFrozen⟩

/-! ## Putting models together -/

/-- Adds a node that is not filled in yet. -/
def create (bench : Workbench) : Nat × Workbench :=
  bench.put {}

mutual

/-- Adds the nodes of a model, the members before the node that they stand
below. Nothing of it has been read. -/
def place : Model → Workbench → Nat × Workbench
  | .node particle children, bench =>
    let (members, bench) := placeAll children bench
    bench.put { particle, pending := members }

def placeAll : List Model → Workbench → List Nat × Workbench
  | [], bench => ([], bench)
  | model :: models, bench =>
    let (first, bench) := place model bench
    let (others, bench) := placeAll models bench
    (first :: others, bench)

end

/-- Changes what a node stands for, and nothing else about it. -/
def setKind (bench : Workbench) (id : Nat) (kind : ParticleKind) :
    Workbench :=
  bench.change id fun node =>
    { node with particle := { node.particle with kind } }

/-- Changes how often a node occurs. -/
def setOccurs (bench : Workbench) (id min : Nat) (max : Option Nat) :
    Except Fault Workbench := do
  let occurs ← Occurs.ofBounds min max
  return bench.change id fun node =>
    { node with particle := { node.particle with occurs } }

/-- Makes a node without children a leaf. -/
def setLeaf (bench : Workbench) (id : Nat) (atom : Atom) :
    Except Fault Workbench :=
  if (bench.node id).children.isEmpty then
    .ok <| bench.change id fun node =>
      { node with
        particle := { node.particle with kind := .leaf, atom := some atom } }
  else
    .error .leafWithChildren

/-- Adds a child behind the others. A leaf takes none, and neither does a node
whose children were read. -/
def addChild (bench : Workbench) (parent child : Nat) :
    Except Fault Workbench :=
  let node := bench.node parent
  if node.particle.kind = .leaf then
    .error (.childOfLeaf (Model.particleText node.particle []))
  else if node.isFrozen then
    .error .frozenChildren
  else
    .ok <| bench.change parent fun node =>
      { node with pending := node.pending ++ [child] }

end Workbench

/-- A computation that looks at nodes and may fix their children. -/
abbrev Look (α : Type) :=
  StateT Workbench (Except Fault) α

namespace Look

/-! ## Single nodes -/

def particle (id : Nat) : Look Particle := do
  return ((← get).node id).particle

/-- The children of a node. They are fixed from now on. -/
def children (id : Nat) : Look (List Nat) := do
  modify fun bench => bench.change id DraftNode.freeze
  return ((← get).node id).children

/-- A copy of a node, which shares its children. -/
def copy (id : Nat) : Look Nat := do
  let shared ← children id
  let particle ← particle id
  modifyGet fun bench => bench.put { particle, frozen := some shared }

/-! ## Going down -/

/-- Goes down from a node, at most `room` nodes below each other. -/
def descend {β : Type} (stop : Nat → β) (step : (Nat → β) → Nat → β) :
    Nat → Nat → β
  | 0 => stop
  | room + 1 => step (descend stop step room)

/-- As many nodes as there are do not stand below each other without end. -/
def endless {α : Type} (id : Nat) : Look α :=
  throw (.endlessDraft id)

def room : Look Nat := do
  return (← get).size

/-- The written form of a node. -/
def textStep (inner : Nat → Look String) (id : Nat) : Look String := do
  let particle ← particle id
  match particle.kind with
  | .unknown | .leaf => return Model.particleText particle []
  | .choice | .sequence =>
    let members ← (← children id).mapM inner
    return Model.particleText particle members

def text (id : Nat) : Look String := do
  descend endless textStep (← room) id

/-- Whether a node is filled in. The first incomplete member of a group ends
the look. -/
def completeStep (inner : Nat → Look Bool) (id : Nat) : Look Bool := do
  let particle ← particle id
  match particle.kind with
  | .unknown => return false
  | .leaf => return particle.atom.isSome
  | .choice | .sequence => (← children id).allM inner

def isComplete (id : Nat) : Look Bool := do
  descend endless completeStep (← room) id

/-- Adds the atoms of a node to those that were found. Below a node that holds
an atom no further ones are looked for. -/
def collectStep (inner : Nat → List Atom → Look (List Atom)) (id : Nat)
    (found : List Atom) : Look (List Atom) := do
  match (← particle id).atom with
  | some atom => return Atom.addDistinct found atom
  | none => (← children id).foldlM (fun found child => inner child found) found

def atoms (id : Nat) : Look (List Atom) := do
  descend (fun id _ => endless id) collectStep (← room) id []

/-! ## Fragments and automata -/

/-- The fragment of a group whose members have these fragments. -/
def groupFragment
    (join : List Fragment → FragmentGraph →
      Except Fault (Fragment × FragmentGraph))
    (occurs : Occurs) (members : List Fragment) (graph : FragmentGraph) :
    Except Fault (Option Fragment × FragmentGraph) := do
  if members.isEmpty then
    return (none, graph)
  else
    let (body, graph) ← join members graph
    let (whole, graph) ← graph.occurring body occurs
    return (some whole, graph)

/-- A member of a sequence that has no fragment counts for nothing. -/
def addPart (inner : Nat → FragmentGraph →
      Look (Option Fragment × FragmentGraph))
    (made : List Fragment × FragmentGraph) (child : Nat) :
    Look (List Fragment × FragmentGraph) := do
  let (part, graph) ← inner child made.2
  return (made.1 ++ part.toList, graph)

/-- A member of a choice that has no fragment is an alternative that reads
nothing. -/
def addBranch (inner : Nat → FragmentGraph →
      Look (Option Fragment × FragmentGraph))
    (made : List Fragment × FragmentGraph) (child : Nat) :
    Look (List Fragment × FragmentGraph) := do
  match ← inner child made.2 with
  | (some branch, graph) => return (made.1 ++ [branch], graph)
  | (none, graph) =>
    let (branch, graph) := graph.nothing
    return (made.1 ++ [branch], graph)

/-- Adds the fragment of a node to a graph. -/
def fragmentStep
    (inner : Nat → FragmentGraph → Look (Option Fragment × FragmentGraph))
    (id : Nat) (graph : FragmentGraph) :
    Look (Option Fragment × FragmentGraph) := do
  let particle ← particle id
  match particle.kind, particle.atom with
  | .unknown, _ => return (none, graph)
  | .leaf, none => return (none, graph)
  | .leaf, some atom =>
    let (body, graph) := graph.leaf atom
    let (whole, graph) ← graph.occurring body particle.occurs
    return (some whole, graph)
  | .sequence, _ =>
    let (parts, graph) ← (← children id).foldlM (addPart inner) ([], graph)
    groupFragment (fun parts graph => graph.sequence parts) particle.occurs
      parts graph
  | .choice, _ =>
    let (branches, graph) ←
      (← children id).foldlM (addBranch inner) ([], graph)
    groupFragment (fun branches graph => graph.alternation branches)
      particle.occurs branches graph

def fragment (id : Nat) (graph : FragmentGraph) :
    Look (Option Fragment × FragmentGraph) := do
  descend (fun id _ => endless id) fragmentStep (← room) id graph

/-- Adds the automaton of a node to a store. -/
def automaton (id : Nat) (store : Automaton.Store) :
    Look (Except Automaton.StateLimitExceeded Nat × Automaton.Store) := do
  match ← fragment id {} with
  | (some fragment, graph) => store.compile graph fragment
  | (none, graph) =>
    let (fragment, graph) := graph.nothing
    store.compile graph fragment

end Look

end ContentModel
