import ContentModel.Grammar.Content

/-!
# Elements and their attributes

A declared element has a form of content, the start node of the automaton of
its content, and attributes in the order of their declaration. Where an
attribute is declared twice the first declaration binds.
-/

namespace ContentModel

/-- The values an attribute may have. -/
inductive AttributeType where
  | cdata
  | id
  | idref
  | idrefs
  | entity
  | entities
  | nmtoken
  | nmtokens
  | notations (names : List String)
  | enumeration (values : List String)
  deriving DecidableEq, Repr

/-- What holds where an attribute is not given. -/
inductive AttributeDefault where
  /-- It has to be given. -/
  | required
  /-- It may be left out. -/
  | implied
  /-- It has this value and no other. -/
  | fixed (value : String)
  /-- It has this value. -/
  | value (value : String)
  deriving DecidableEq, Repr

/-- A declared attribute. -/
structure Attribute where
  atom : Atom
  type : AttributeType
  default : AttributeDefault
  deriving DecidableEq, Repr

namespace Attribute

def isRequired (declared : Attribute) : Bool :=
  declared.default == .required

def isFixed (declared : Attribute) : Bool :=
  match declared.default with
  | .fixed _ => true
  | _ => false

/-- The value where the attribute is not given. -/
def defaultValue (declared : Attribute) : Option String :=
  match declared.default with
  | .fixed value | .value value => some value
  | .required | .implied => none

/-- The values of an attribute that may have no others. -/
def allowedValues (declared : Attribute) : Option (List String) :=
  match declared.type with
  | .notations values | .enumeration values => some values
  | _ => none

end Attribute

/-- A declared element. -/
structure Element where
  atom : Atom
  content : ContentKind
  /-- The start node of the automaton of the content. -/
  start : Nat
  /-- The content as declared. -/
  model : String := ""
  /-- Whether the element is only referred to and never declared. -/
  isUndefined : Bool := false
  /-- The attributes, each name once. -/
  attributes : List Attribute := []
  deriving DecidableEq, Repr

namespace Element

/-- The placeholder for an element that is referred to and never declared. It
may hold anything. -/
def undefined (atom : Atom) (any : Nat) : Element where
  atom := atom
  content := .any
  start := any
  isUndefined := true

def name (element : Element) : String :=
  element.atom.name

/-- Whether text may occur in the content. -/
def allowsText (element : Element) : Bool :=
  element.content == .mixed || element.content == .any

def isAny (element : Element) : Bool :=
  element.content == .any

def isEmpty (element : Element) : Bool :=
  element.content == .empty

def findAttribute? (element : Element) (name : String) : Option Attribute :=
  element.attributes.find? (·.atom.name == name)

def requiredAttributes (element : Element) : List Attribute :=
  element.attributes.filter Attribute.isRequired

/-- Adds an attribute unless one of its name is declared. -/
def addAttribute (element : Element) (declared : Attribute) : Element :=
  if (element.findAttribute? declared.atom.name).isSome then element
  else { element with attributes := element.attributes ++ [declared] }

end Element

end ContentModel
