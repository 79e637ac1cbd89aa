import ContentModel.Automaton.Node
import ContentModel.Fault
import ContentModel.Search

/-!
# Reading automata

A reader gives access to the nodes of a collection of automata, whether it is
still being built or already published. Walks, listings and the comparison of
languages need no more than that.
-/

namespace ContentModel.Automaton

/-- Read access to numbered nodes. -/
structure Reader where
  /-- A bound above every number that can be read. -/
  size : Nat
  /-- The node of a number; reading a number without a node is a fault. -/
  read : Nat → Except Fault Node

/-- The nodes that a word visits from a start, and whether the whole word was
read and ends in an accepting node. -/
structure Walk where
  path : List Nat
  accepted : Bool
  deriving DecidableEq, Repr

namespace Reader

def advance (reader : Reader) (id : Nat) (name : String) :
    Except Fault (Option Nat) := do
  let node ← reader.read id
  return node.advance id name

/-- Reads a word name by name and stops where a name leads nowhere. -/
def walk (reader : Reader) (id : Nat) : List String → Except Fault Walk
  | [] => do
    let node ← reader.read id
    return ⟨[id], node.accepting⟩
  | name :: word => do
    match ← reader.advance id name with
    | none => return ⟨[id], false⟩
    | some next =>
      let rest ← reader.walk next word
      return ⟨id :: rest.path, rest.accepted⟩

/-! ## Listings -/

/-- The nodes that can be reached from `start`, nearest first and in order of
name. -/
def reachable (reader : Reader) (start : Nat) : Except Fault (List Nat) := do
  let visited ←
    Search.breadthFirst (reader.size + 1)
      (fun id => return (← reader.read id).targets) [start]
  return visited.inOrder

/-- What a listing writes behind the name of a node: `line` is the number of
its own line and `lineOf` that of another node. -/
def nodeText (node : Node) (line : Nat) (lineOf : Nat → Nat) : String :=
  if node.isAny then
    s!"* → D{line}"
  else if node.isEmpty then
    "EMPTY"
  else if node.transitions.isEmpty then
    "∅"
  else
    ", ".intercalate <|
      node.transitions.entries.map fun (atom, target) =>
        atom.name ++ " → D" ++ toString (lineOf target)

/-- One line of a listing. Accepting nodes are marked. -/
def lineText (node : Node) (line : Nat) (lineOf : Nat → Nat) : String :=
  "D" ++ toString line ++ (if node.accepting then " ✓: " else ": ") ++
    nodeText node line lineOf ++ "\n"

/-- The automaton from `start`, one line for a node, numbered in the order in
which the nodes are reached. -/
def listing (reader : Reader) (start : Nat) : Except Fault String := do
  let order ← reader.reachable start
  let lines ← order.zipIdx.mapM fun (id, line) => do
    return lineText (← reader.read id) line order.idxOf
  return String.join lines

/-! ## Comparing languages -/

/-- A node of each of two automata; `none` when a word has left one of them. -/
abbrev Joint := Option Nat × Option Nat

instance : Ord Joint :=
  lexOrd

/-- Why the comparison of two automata ends early. -/
inductive Verdict where
  /-- Some word is in one language only. -/
  | different
  | fault (cause : Fault)
  deriving DecidableEq, Repr

def readSide (reader : Reader) : Option Nat → Except Fault (Option Node)
  | none => return none
  | some id => return some (← reader.read id)

def advanceSide (side : Option Nat) (node : Option Node) (name : String) :
    Option Nat := do
  (← node).advance (← side) name

/-- The names on which either node has a step, in order and without
repetition. -/
def jointNames (left right : Option Node) : List String :=
  let names (node : Option Node) : List String :=
    match node with
    | none => []
    | some node => node.transitions.atoms.map Atom.name
  (Std.TreeSet.ofList (names left ++ names right)).toList

/-- The joint positions one name further, in order of name, unless the two
nodes already differ. Two nodes that accept everything need no further look. -/
def jointSteps (reader : Reader) (joint : Joint) :
    Except Fault (Except Verdict (List Joint)) := do
  let left ← reader.readSide joint.1
  let right ← reader.readSide joint.2
  if left.any (·.accepting) != right.any (·.accepting) then
    return .error .different
  else if left.any Node.isAny != right.any Node.isAny then
    return .error .different
  else if left.any Node.isAny then
    return .ok []
  else
    return .ok <| (jointNames left right).map fun name =>
      (advanceSide joint.1 left name, advanceSide joint.2 right name)

/-- Whether the automata from two nodes accept the same words. Both are walked
at once, the last name of a table first. -/
def sameLanguage (reader : Reader) (left right : Nat) : Except Fault Bool :=
  let steps (joint : Joint) : Except Verdict (List Joint) :=
    match reader.jointSteps joint with
    | .error cause => .error (.fault cause)
    | .ok (.error verdict) => .error verdict
    | .ok (.ok found) => .ok found.reverse
  match Search.depthFirst ((reader.size + 1) * (reader.size + 1)) steps
      [(some left, some right)] with
  | .ok _ => .ok true
  | .error .different => .ok false
  | .error (.fault cause) => .error cause

end Reader

end ContentModel.Automaton
