import ContentModel.Atom
import ContentModel.Occurs

/-!
# Content models

A content model says which sequences of child elements an element may have. It
is a tree of particles: a leaf names one element, a group puts its members in
sequence or offers a choice between them, and every particle has bounds on how
often it occurs. While a declaration is being read some particles are not
filled in yet, and a particle may hold more than its kind makes use of: a group
may keep the name it had as a leaf, and a leaf may keep children.
-/

namespace ContentModel

/-- What a particle stands for. -/
inductive ParticleKind where
  /-- Not filled in yet. -/
  | unknown
  /-- One of the members. -/
  | choice
  /-- The members one after the other. -/
  | sequence
  /-- One element. -/
  | leaf
  deriving DecidableEq, Repr

/-- A node of a content model apart from its children. -/
structure Particle where
  kind : ParticleKind := .unknown
  occurs : Occurs := Occurs.once
  atom : Option Atom := none
  deriving DecidableEq, Repr

instance : Inhabited Particle :=
  ⟨{}⟩

/-- A content model. -/
inductive Model where
  | node (particle : Particle) (children : List Model)

namespace Model

instance : Inhabited Model :=
  ⟨node {} []⟩

def particle : Model → Particle
  | node particle _ => particle

/-- The members of the topmost particle. -/
def children : Model → List Model
  | node _ children => children

def leaf (atom : Atom) : Model :=
  node { kind := .leaf, atom } []

def sequence (members : List Model) : Model :=
  node { kind := .sequence } members

def choice (members : List Model) : Model :=
  node { kind := .choice } members

/-- A model that is not filled in yet. -/
def unknown (members : List Model) : Model :=
  node {} members

def withOccurs (occurs : Occurs) : Model → Model
  | node particle children => node { particle with occurs } children

/-! ## The written form -/

/-- How a particle is written, given the written forms of its members. -/
def particleText (particle : Particle) (members : List String) : String :=
  let body :=
    match particle.kind, particle.atom with
    | .leaf, some atom => atom.name
    | .leaf, none => "#UNKNOWN"
    | .unknown, _ => "#UNKNOWN"
    | .sequence, _ => "(" ++ ",".intercalate members ++ ")"
    | .choice, _ => "(" ++ "|".intercalate members ++ ")"
  body ++ particle.occurs.cardinality.text

mutual

def text : Model → String
  | node particle children => particleText particle (texts children)

def texts : List Model → List String
  | [] => []
  | model :: models => model.text :: texts models

end

theorem texts_eq_map (models : List Model) : texts models = models.map text := by
  induction models with
  | nil =>
      rfl
  | cons head tail inductionHypothesis =>
      simp only [texts, List.map_cons, inductionHypothesis]

/-! ## Completeness -/

mutual

/-- Whether every particle that counts is filled in. -/
def isComplete : Model → Bool
  | node particle children =>
    match particle.kind with
    | .unknown => false
    | .leaf => particle.atom.isSome
    | .choice | .sequence => allComplete children

def allComplete : List Model → Bool
  | [] => true
  | model :: models => model.isComplete && allComplete models

end

/-! ## Names -/

mutual

/-- The atoms of the particles from the left, with repetitions. Below a
particle that holds an atom no further ones are looked for. -/
def heldAtoms : Model → List Atom
  | node particle children =>
    match particle.atom with
    | some atom => [atom]
    | none => allHeldAtoms children

def allHeldAtoms : List Model → List Atom
  | [] => []
  | model :: models => model.heldAtoms ++ allHeldAtoms models

end

theorem allHeldAtoms_eq_flatMap (models : List Model) :
    allHeldAtoms models = models.flatMap heldAtoms := by
  induction models with
  | nil =>
      rfl
  | cons head tail inductionHypothesis =>
      simp only [allHeldAtoms, List.flatMap_cons, inductionHypothesis]

/-- The atoms of a model, each name once, in the order in which they first
appear. -/
def atoms (model : Model) : List Atom :=
  Atom.distinct model.heldAtoms

/-! ## Induction -/

/-- What holds of a model whenever it holds of its members holds of every
model. -/
theorem inductionOnMembers {motive : Model → Prop}
    (node : ∀ particle children,
      (∀ child ∈ children, motive child) → motive (node particle children)) :
    ∀ model, motive model
  | .node particle children =>
    node particle children fun child member => by
      have := List.sizeOf_lt_of_mem member
      exact inductionOnMembers node child
termination_by model => model

end Model

end ContentModel
