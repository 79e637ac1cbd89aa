import ContentModel.AtomMap

/-!
# Nodes of automata

A node says whether a word may end there and where each name leads. Two flags
stand for whole languages: an `any` node loops on every name and an `empty`
node has no step at all, whatever their tables hold.
-/

namespace ContentModel.Automaton

/-- Where each name leads, in order of name. -/
abbrev Transitions := AtomMap Nat

/-- Enters the step on the name of `atom`; also gives the target that this
replaces. -/
def Transitions.set (transitions : Transitions) (atom : Atom) (target : Nat) :
    Option Nat × Transitions :=
  (transitions.find? atom.name, transitions.insert atom target)

/-- A node of an automaton. -/
structure Node where
  accepting : Bool := false
  /-- Every name leads back to the node. -/
  isAny : Bool := false
  /-- No name leads anywhere: the node stands for the empty word alone. -/
  isEmpty : Bool := false
  transitions : Transitions := ∅
  deriving DecidableEq

namespace Node

instance : Inhabited Node :=
  ⟨{}⟩

/-- The node to which `name` leads from the node numbered `id`. -/
def advance (node : Node) (id : Nat) (name : String) : Option Nat :=
  if node.isAny then
    some id
  else if node.isEmpty then
    none
  else
    node.transitions.find? name

def targets (node : Node) : List Nat :=
  node.transitions.values

end Node

def idText (id : Nat) : String :=
  "#" ++ toString id

/-- A construction would have needed more nodes than the store allows. -/
structure StateLimitExceeded where
  limit : Nat
  deriving DecidableEq, Repr

def StateLimitExceeded.message (error : StateLimitExceeded) : String :=
  s!"subset construction exceeded {error.limit} states"

end ContentModel.Automaton
