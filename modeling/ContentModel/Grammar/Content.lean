import ContentModel.Model.Draft

/-!
# Content of elements

An element is declared to be empty, to hold anything, to hold text between
elements of a list, or to hold elements as a content model says. The automaton
of a content accepts the sequences of child elements that it allows.
-/

namespace ContentModel

/-- The forms of content. -/
inductive ContentKind where
  | empty
  | any
  | mixed
  | children
  deriving DecidableEq, Repr

/-- The declared content of an element. -/
inductive Content where
  /-- No child at all. -/
  | empty
  /-- Text and any elements. -/
  | any
  /-- Text and any of the listed elements. -/
  | mixed (atoms : List Atom)
  /-- Elements as the model says. -/
  | children (model : Model)

namespace Content

instance : Inhabited Content :=
  ⟨empty⟩

def kind : Content → ContentKind
  | empty => .empty
  | any => .any
  | mixed _ => .mixed
  | children _ => .children

/-- The model of mixed content: the listed elements in any number and order. -/
def mixedModel (atoms : List Atom) : Model :=
  (Model.choice (atoms.map Model.leaf)).withOccurs Occurs.zeroOrMore

/-- The model that the child elements have to match. Empty content and content
of any form have none. -/
def elementModel : Content → Option Model
  | empty | any => none
  | mixed atoms => some (mixedModel atoms)
  | children model => some model

/-- Puts the model that the child elements have to match on the workbench. It is
a copy of the declared model, or new where the declaration is a list of
elements. -/
def draft : Content → Option (Look Nat)
  | empty | any => none
  | mixed atoms => some (modifyGet fun bench => bench.place (mixedModel atoms))
  | children model => some do
    let declared ← modifyGet fun bench => bench.place model
    Look.copy declared

/-- Whether nothing in the content is left to be filled in. -/
def isComplete : Content → Bool
  | children model => model.isComplete
  | empty | any | mixed _ => true

/-- The atoms of the elements that the content names. -/
def atoms (content : Content) : List Atom :=
  match content.elementModel with
  | some model => model.atoms
  | none => []

def text : Content → String
  | empty => "EMPTY"
  | any => "ANY"
  | mixed [] => "(#PCDATA)"
  | mixed atoms =>
    "(#PCDATA" ++ String.join (atoms.map fun atom => "|" ++ atom.name) ++ ")*"
  | children model => model.text

/-- Adds the automaton of a content to the store. -/
def compile (content : Content) (store : Automaton.Store) :
    Except Fault
      (Except Automaton.StateLimitExceeded Nat × Automaton.Store) :=
  match content with
  | empty =>
    let (id, store) := store.emptyNode
    .ok (.ok id, store)
  | any =>
    let (id, store) := store.anyNode
    .ok (.ok id, store)
  | mixed atoms => store.compileModel (mixedModel atoms)
  | children model => store.compileModel model

end Content

end ContentModel
