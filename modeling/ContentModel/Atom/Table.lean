import ContentModel.Atom

/-!
# The table of declared names

Every name is entered once for each kind. Entering a name again gives the atom
that is already there, and the table lists elements before attributes, each in
the order in which they were entered.
-/

namespace ContentModel

/-- The names met so far, by kind, in order of entry. -/
structure AtomTable where
  elements : List Atom := []
  attributes : List Atom := []
  deriving DecidableEq, Repr

namespace AtomTable

def ofKind (table : AtomTable) : AtomKind → List Atom
  | .elementName => table.elements
  | .attributeName => table.attributes

/-- The atom entered under a name of the given kind. -/
def find? (table : AtomTable) (kind : AtomKind) (name : String) :
    Option Atom :=
  (table.ofKind kind).find? (·.name == name)

/-- Appends an atom to the entries of its kind. -/
def push (table : AtomTable) (atom : Atom) : AtomTable :=
  match atom.kind with
  | .elementName => { table with elements := table.elements ++ [atom] }
  | .attributeName => { table with attributes := table.attributes ++ [atom] }

/-- Enters a name, or finds the atom that already stands for it. -/
def intern (table : AtomTable) (kind : AtomKind) (name : String) :
    Atom × AtomTable :=
  match table.find? kind name with
  | some atom => (atom, table)
  | none => (⟨kind, name⟩, table.push ⟨kind, name⟩)

/-- All atoms, elements first. -/
def toList (table : AtomTable) : List Atom :=
  table.elements ++ table.attributes

def size (table : AtomTable) : Nat :=
  table.elements.length + table.attributes.length

def isEmpty (table : AtomTable) : Bool :=
  table.elements.isEmpty && table.attributes.isEmpty

theorem length_toList (table : AtomTable) :
    table.toList.length = table.size :=
  List.length_append

end AtomTable

end ContentModel
