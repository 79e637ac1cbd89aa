import ContentModel.Automaton.Frozen
import ContentModel.Grammar.Element
import ContentModel.Register

/-!
# Schemas

A schema finds elements by name and holds the automata of their contents. If an
error was recorded, every query fails with the error that was recorded first.
-/

namespace ContentModel

/-- What may go wrong while a grammar is read. -/
inductive GrammarError where
  /-- The grammar is not well formed. -/
  | parse (message : String)
  /-- The grammar is not well formed, at a known line. -/
  | parseAt (line : Nat) (message : String)
  /-- The content of an element needs too many states. -/
  | tooLarge (element : String) (source : Automaton.StateLimitExceeded)
  /-- The content of an element is not filled in. -/
  | incomplete (element : String)
  deriving DecidableEq, Repr

namespace GrammarError

def message : GrammarError → String
  | .parse message => "parse error: " ++ message
  | .parseAt line message =>
    "parse error at line " ++ toString line ++ ": " ++ message
  | .tooLarge element _ =>
    "content model of `" ++ element ++ "` could not be compiled"
  | .incomplete element =>
    "content model of `" ++ element ++ "` is incomplete"

/-- The failure behind an error. -/
def source : GrammarError → Option Automaton.StateLimitExceeded
  | .tooLarge _ source => some source
  | _ => none

end GrammarError

/-- The failure of a query because the grammar was not read without error. -/
structure Poisoned where
  cause : GrammarError
  deriving DecidableEq, Repr

def Poisoned.message (poisoned : Poisoned) : String :=
  "schema build failed: " ++ poisoned.cause.message

/-- The elements of a grammar. -/
structure Schema where
  /-- The elements in the order in which they were added. -/
  registered : Register Element := ∅
  store : Automaton.FrozenStore
  /-- The error that was recorded first. -/
  error : Option GrammarError := none
  deriving DecidableEq

namespace Schema

/-- A schema without elements over published automata. -/
def ofStore (store : Automaton.FrozenStore) : Schema where
  store := store

/-! ## Changes -/

/-- Registers an element, and gives the one of the same name that this
replaces. -/
def addElement (schema : Schema) (element : Element) :
    Option Element × Schema :=
  (schema.registered.find? element.name,
    { schema with
      registered := schema.registered.insert element.name element })

/-- Records an error. Only the first one is kept. -/
def recordError (schema : Schema) (error : GrammarError) : Schema :=
  { schema with error := schema.error <|> some error }

/-! ## Queries -/

/-- Fails if an error was recorded. -/
def check (schema : Schema) : Except Poisoned Unit :=
  match schema.error with
  | some cause => .error ⟨cause⟩
  | none => .ok ()

def findElement? (schema : Schema) (name : String) :
    Except Poisoned (Option Element) := do
  schema.check
  return schema.registered.find? name

/-- The elements, sorted by name. -/
def sorted (schema : Schema) : List Element :=
  schema.registered.values.mergeSort fun left right => left.name ≤ right.name

def elements (schema : Schema) : Except Poisoned (List Element) := do
  schema.check
  return schema.sorted

def size (schema : Schema) : Except Poisoned Nat := do
  schema.check
  return schema.registered.size

def isEmpty (schema : Schema) : Except Poisoned Bool := do
  schema.check
  return schema.registered.isEmpty

def automata (schema : Schema) : Except Poisoned Automaton.FrozenStore := do
  schema.check
  return schema.store

/-- The start of the automaton of an element of this schema. -/
def start (schema : Schema) (element : Element) :
    Except Fault Automaton.Position :=
  schema.store.position element.start

end Schema

end ContentModel
