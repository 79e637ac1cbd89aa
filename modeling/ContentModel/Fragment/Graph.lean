import ContentModel.Atom
import ContentModel.Fault

/-!
# Fragment graphs

A fragment graph holds the points of a declaration. A point reads one atom or
nothing, and a walk goes on to any of its successors. A fragment is a part of
the graph seen from outside: a walk through it starts at `entry` and is done
when it has passed `exit`.
-/

namespace ContentModel

/-- The number that stands for "past the exit" among successors and in sets of
points. No graph has that many points. -/
def pastExit : Nat :=
  4294967295

/-- A point of a fragment graph. -/
structure Point where
  /-- The atom that is read here, if any. -/
  atom : Option Atom := none
  /-- Where a walk may go on, in the order in which the edges were made. -/
  successors : List Nat := []
  deriving DecidableEq, Repr

instance : Inhabited Point :=
  ⟨{}⟩

def Point.isEpsilon (point : Point) : Bool :=
  point.atom.isNone

/-- A part of a fragment graph. -/
structure Fragment where
  entry : Nat
  exit : Nat
  deriving DecidableEq, Repr

def Fragment.single (id : Nat) : Fragment :=
  ⟨id, id⟩

/-- The points of a declaration. A point is known by its place. -/
structure FragmentGraph where
  points : Array Point := #[]
  deriving DecidableEq, Repr

namespace FragmentGraph

instance : Inhabited FragmentGraph :=
  ⟨{}⟩

def size (graph : FragmentGraph) : Nat :=
  graph.points.size

def isEmpty (graph : FragmentGraph) : Bool :=
  graph.points.isEmpty

def point (graph : FragmentGraph) (id : Nat) : Except Fault Point :=
  match graph.points[id]? with
  | some point => .ok point
  | none => .error (.missingPoint id)

def toList (graph : FragmentGraph) : List (Nat × Point) :=
  graph.points.toList.zipIdx.map Prod.swap

/-- Adds a point behind the others. -/
def addPoint (graph : FragmentGraph) (point : Point) :
    Nat × FragmentGraph :=
  (graph.points.size, ⟨graph.points.push point⟩)

def addEpsilon (graph : FragmentGraph) : Nat × FragmentGraph :=
  graph.addPoint {}

def addMatcher (graph : FragmentGraph) (atom : Atom) : Nat × FragmentGraph :=
  graph.addPoint { atom := some atom }

/-- Lets a walk at `source` go on at any of `targets`, after all that it could
go on to before. -/
def connectAll (graph : FragmentGraph) (source : Nat) (targets : List Nat) :
    Except Fault FragmentGraph :=
  if source < graph.points.size then
    .ok ⟨graph.points.modify source fun point =>
      { point with successors := point.successors ++ targets }⟩
  else
    .error (.missingPoint source)

/-- Lets a walk at `source` go on at `target`. -/
def connect (graph : FragmentGraph) (source target : Nat) :
    Except Fault FragmentGraph :=
  graph.connectAll source [target]

def setSuccessors (graph : FragmentGraph) (id : Nat) (targets : List Nat) :
    FragmentGraph :=
  ⟨graph.points.modify id fun point => { point with successors := targets }⟩

def edgeCount (graph : FragmentGraph) : Nat :=
  graph.points.foldl (fun count point => count + point.successors.length) 0

/-! ## The written form -/

def pointText (id : Nat) (point : Point) : String :=
  let label :=
    match point.atom with
    | some atom => atom.name
    | none => "ε"
  let successors :=
    if point.successors.isEmpty then
      "∅"
    else
      ", ".intercalate (point.successors.map fun id => "N" ++ toString id)
  "N" ++ toString id ++ ": " ++ label ++ " → " ++ successors ++ "\n"

/-- The graph, one line for a point. -/
def listing (graph : FragmentGraph) : String :=
  String.join (graph.toList.map fun (id, point) => pointText id point)

end FragmentGraph

end ContentModel
