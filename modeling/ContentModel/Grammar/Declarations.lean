import ContentModel.Grammar.Schema

/-!
# Declarations

Declarations are collected one by one and every content is compiled as it
arrives. An error does not end the collection; the first one is kept and goes
into the schema. Publishing adds an undefined element for every name that is
referred to and never declared.
-/

namespace ContentModel

/-- The declarations read so far. -/
structure Declarations where
  store : Automaton.Store := {}
  /-- The elements in the order in which they were declared first. -/
  elements : Register Element := ∅
  /-- The attribute declarations for each element, in order. -/
  attributes : Register (List Attribute) := ∅
  /-- The atoms that contents refer to, each name once. -/
  referenced : List Atom := []
  /-- The error that was recorded first. -/
  error : Option GrammarError := none

namespace Declarations

instance : Inhabited Declarations :=
  ⟨{}⟩

/-- Sets how many states the automaton of one content may have. -/
def setStateLimit (declarations : Declarations) (limit : Nat) :
    Declarations :=
  { declarations with
    store := { declarations.store with stateLimit := limit } }

/-- Records an error. Only the first one is kept. -/
def recordError (declarations : Declarations) (error : GrammarError) :
    Declarations :=
  { declarations with error := declarations.error <|> some error }

/-- Remembers the atoms that a content refers to. -/
def addReferences (declarations : Declarations) (atoms : List Atom) :
    Declarations :=
  { declarations with
    referenced := atoms.foldl Atom.addDistinct declarations.referenced }

/-- Enters a compiled element. The automaton of an earlier element of the same
name is released. -/
def enter (declarations : Declarations) (element : Element) :
    Except Fault Declarations := do
  let entered :=
    { declarations with
      elements := declarations.elements.insert element.name element }
  match declarations.elements.find? element.name with
  | none => return entered
  | some previous =>
    let (_, store) ← entered.store.release previous.start
    return { entered with store }

/-- Declares an element. A later declaration of the same name replaces an
earlier one. -/
def declareElement (declarations : Declarations) (atom : Atom)
    (content : Content) : Except Fault Declarations := do
  if !content.isComplete then
    return declarations.recordError (.incomplete atom.name)
  else
    let declarations := declarations.addReferences content.atoms
    let (compiled, store) ← content.compile declarations.store
    let declarations := { declarations with store }
    match compiled with
    | .error failure =>
      return declarations.recordError (.tooLarge atom.name failure)
    | .ok start =>
      declarations.enter
        { atom, content := content.kind, start, model := content.text }

/-- Declares attributes of an element, behind those declared before. -/
def declareAttributes (declarations : Declarations) (element : String)
    (attributes : List Attribute) : Declarations :=
  { declarations with
    attributes :=
      declarations.attributes.alter element fun declared =>
        declared.getD [] ++ attributes }

/-! ## Publishing -/

/-- Adds an undefined element unless its name is declared. -/
def addUndefined (declarations : Declarations) (atom : Atom) :
    Declarations :=
  if declarations.elements.contains atom.name then
    declarations
  else
    let (any, store) := declarations.store.anyNode
    { declarations with
      store
      elements :=
        declarations.elements.insert atom.name (.undefined atom any) }

/-- Gives attributes to the element of a name, or to an undefined one if none
is declared. -/
def attach (declarations : Declarations) (entry : String × List Attribute) :
    Declarations :=
  let declarations := declarations.addUndefined (Atom.ofElement entry.1)
  match declarations.elements.find? entry.1 with
  | none => declarations
  | some element =>
    { declarations with
      elements :=
        declarations.elements.insert entry.1 <|
          entry.2.foldl Element.addAttribute element }

/-- Adds the undefined elements and the attributes. -/
def complete (declarations : Declarations) : Declarations :=
  let defined := declarations.referenced.foldl addUndefined declarations
  declarations.attributes.entries.foldl attach defined

/-- The schema of all elements. If an error was recorded, it is recorded
there. -/
def publish (declarations : Declarations) : Schema :=
  let complete := declarations.complete
  let schema :=
    complete.elements.values.foldl
      (fun schema element => (schema.addElement element).2)
      (Schema.ofStore complete.store.freeze)
  match complete.error with
  | none => schema
  | some error => schema.recordError error

end Declarations

end ContentModel
