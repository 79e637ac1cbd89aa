import ContentModel.Automaton.Reader

/-!
# What nodes stand for

The flags of a node are asked one after the other, and a node without flags has
the steps of its table.
-/

namespace ContentModel.Automaton

/-- What a node stands for. -/
inductive Role where
  /-- The steps are those of the table. -/
  | ordinary
  /-- Every name leads back to the node. -/
  | any
  /-- No name leads anywhere. -/
  | empty
  deriving DecidableEq, Repr

namespace Node

variable {node : Node}

/-- What the flags of a node say, the first of them before the other. -/
def role (node : Node) : Role :=
  if node.isAny then .any else if node.isEmpty then .empty else .ordinary

theorem role_eq_any_iff : node.role = .any ↔ node.isAny = true := by
  rw [role]
  cases node.isAny with
  | true => simp
  | false =>
      cases node.isEmpty with
      | true => simp
      | false => simp

theorem role_eq_empty_iff :
    node.role = .empty ↔ node.isAny = false ∧ node.isEmpty = true := by
  rw [role]
  cases node.isAny with
  | true => simp
  | false =>
      cases node.isEmpty with
      | true => simp
      | false => simp

theorem role_eq_ordinary_iff :
    node.role = .ordinary ↔ node.isAny = false ∧ node.isEmpty = false := by
  rw [role]
  cases node.isAny with
  | true => simp
  | false =>
      cases node.isEmpty with
      | true => simp
      | false => simp

theorem role_ne_ordinary_iff :
    node.role ≠ .ordinary ↔ node.isAny = true ∨ node.isEmpty = true := by
  rw [Ne, role_eq_ordinary_iff]
  cases node.isAny with
  | true => simp
  | false => simp

/-- Nodes with the same flags stand for the same. -/
theorem role_congr {other : Node} (sameFlags :
    other.isAny = node.isAny ∧ other.isEmpty = node.isEmpty) :
    other.role = node.role := by
  rw [role, role, sameFlags.1, sameFlags.2]

/-- The role says both flags, where they do not stand together. -/
theorem flags_congr {other : Node}
    (notBoth : ¬ (node.isAny = true ∧ node.isEmpty = true))
    (otherNotBoth : ¬ (other.isAny = true ∧ other.isEmpty = true))
    (sameRole : other.role = node.role) :
    other.isAny = node.isAny ∧ other.isEmpty = node.isEmpty := by
  have sameAny : other.isAny = true ↔ node.isAny = true := by
    rw [← role_eq_any_iff, sameRole, role_eq_any_iff]
  have sameEmpty : other.isAny = false ∧ other.isEmpty = true ↔
      node.isAny = false ∧ node.isEmpty = true := by
    rw [← role_eq_empty_iff, sameRole, role_eq_empty_iff]
  grind

theorem advance_eq (node : Node) (id : Nat) (name : String) :
    node.advance id name =
      match node.role with
      | .any => some id
      | .empty => none
      | .ordinary => node.transitions.find? name := by
  rw [advance, role]
  cases node.isAny with
  | true => rfl
  | false =>
      cases node.isEmpty with
      | true => rfl
      | false => rfl

end Node

theorem Reader.nodeText_eq (node : Node) (line : Nat) (lineOf : Nat → Nat) :
    nodeText node line lineOf =
      match node.role with
      | .any => s!"* → D{line}"
      | .empty => "EMPTY"
      | .ordinary =>
        if node.transitions.isEmpty then
          "∅"
        else
          ", ".intercalate <|
            node.transitions.entries.map fun (atom, target) =>
              atom.name ++ " → D" ++ toString (lineOf target) := by
  rw [nodeText, Node.role]
  cases node.isAny with
  | true => rfl
  | false =>
      cases node.isEmpty with
      | true => rfl
      | false => rfl

end ContentModel.Automaton
