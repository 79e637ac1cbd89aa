/-!
# Atoms

An atom is the name of an element or of an attribute. The kind says where the
name was declared; order and identity look at the name alone, so that one table
never holds two entries under one name.
-/

namespace ContentModel

/-- The name space in which a name was declared. -/
inductive AtomKind where
  | elementName
  | attributeName
  deriving DecidableEq, Repr

/-- A declared name together with its name space. -/
structure Atom where
  kind : AtomKind
  name : String
  deriving DecidableEq, Repr

namespace Atom

def ofElement (name : String) : Atom :=
  ⟨.elementName, name⟩

def ofAttribute (name : String) : Atom :=
  ⟨.attributeName, name⟩

/-- Atoms are ordered by name, code point by code point. -/
instance : Ord Atom where
  compare left right := compare left.name right.name

theorem compare_eq (left right : Atom) :
    compare left right = compare left.name right.name :=
  rfl

/-- Two atoms stand for the same name exactly when neither precedes the
other. -/
theorem compare_eq_eq_iff (left right : Atom) :
    compare left right = .eq ↔ left.name = right.name := by
  rw [compare_eq]
  exact Std.LawfulEqCmp.compare_eq_iff_eq

/-- Atoms in ascending order of name; atoms of one name keep their order. -/
def sort (atoms : List Atom) : List Atom :=
  atoms.mergeSort fun left right => (compare left right).isLE

/-- Appends an atom unless its name is already listed. -/
def addDistinct (atoms : List Atom) (atom : Atom) : List Atom :=
  if atoms.any (·.name == atom.name) then atoms else atoms ++ [atom]

/-- The atoms of a list without those whose name occurred earlier. -/
def distinct (atoms : List Atom) : List Atom :=
  atoms.foldl addDistinct []

end Atom

end ContentModel
