import ContentModel.Fault

/-!
# Occurrence bounds

How often a part of a content model may occur: at least `min` times and, unless
the bound is open, at most `max` times. A cardinality is the form in which the
bounds are written; the common bounds have a sign of their own.
-/

namespace ContentModel

/-- A least and a greatest number of occurrences; `none` is no greatest one. -/
structure Occurs where
  min : Nat
  max : Option Nat
  deriving DecidableEq, Repr

/-- The written forms of occurrence bounds. -/
inductive Cardinality where
  /-- Exactly once, which is not written. -/
  | one
  /-- At most once, written `?`. -/
  | optional
  /-- Any number of times, written `*`. -/
  | zeroOrMore
  /-- At least once, written `+`. -/
  | oneOrMore
  /-- Not at all. -/
  | never
  /-- Any other bounds, written as numbers in braces. -/
  | bounded (min : Nat) (max : Option Nat)
  deriving DecidableEq, Repr

namespace Occurs

def once : Occurs :=
  ⟨1, some 1⟩

instance : Inhabited Occurs :=
  ⟨once⟩

def optional : Occurs :=
  ⟨0, some 1⟩

def zeroOrMore : Occurs :=
  ⟨0, none⟩

def oneOrMore : Occurs :=
  ⟨1, none⟩

/-- The bounds from `min` to `max`, which must not be less. -/
def ofBounds (min : Nat) (max : Option Nat) : Except Fault Occurs :=
  match max with
  | none => .ok ⟨min, none⟩
  | some max =>
    if max < min then .error (.invertedBounds min max)
    else .ok ⟨min, some max⟩

/-- Whether a number of occurrences lies within the bounds. -/
def Admits (occurs : Occurs) (count : Nat) : Prop :=
  occurs.min ≤ count ∧ ∀ max ∈ occurs.max, count ≤ max

instance (occurs : Occurs) (count : Nat) :
    Decidable (occurs.Admits count) :=
  match found : occurs.max with
  | none =>
    if above : occurs.min ≤ count then
      .isTrue ⟨above, by simp [found]⟩
    else
      .isFalse fun admitted => above admitted.1
  | some max =>
    if within : occurs.min ≤ count ∧ count ≤ max then
      .isTrue ⟨within.1, by simpa [found] using within.2⟩
    else
      .isFalse fun admitted => within ⟨admitted.1, admitted.2 max found⟩

/-- The form in which the bounds are written. -/
def cardinality : Occurs → Cardinality
  | ⟨1, some 1⟩ => .one
  | ⟨0, some 1⟩ => .optional
  | ⟨0, none⟩ => .zeroOrMore
  | ⟨1, none⟩ => .oneOrMore
  | ⟨0, some 0⟩ => .never
  | ⟨min, max⟩ => .bounded min max

end Occurs

namespace Cardinality

def min : Cardinality → Nat
  | .one | .oneOrMore => 1
  | .optional | .zeroOrMore | .never => 0
  | .bounded min _ => min

def max : Cardinality → Option Nat
  | .one | .optional => some 1
  | .zeroOrMore | .oneOrMore => none
  | .never => some 0
  | .bounded _ max => max

/-- The written form. Equal bounds are written once, an open bound is left
out. -/
def text : Cardinality → String
  | .one => ""
  | .optional => "?"
  | .zeroOrMore => "*"
  | .oneOrMore => "+"
  | .never => "\x7b0\x7d"
  | .bounded min none => "\x7b" ++ toString min ++ ",\x7d"
  | .bounded min (some max) =>
    if min = max then
      "\x7b" ++ toString min ++ "\x7d"
    else
      "\x7b" ++ toString min ++ "," ++ toString max ++ "\x7d"

end Cardinality

/-- The written form keeps the bounds. -/
theorem Occurs.min_max_cardinality (occurs : Occurs) :
    (⟨occurs.cardinality.min, occurs.cardinality.max⟩ : Occurs) = occurs := by
  unfold Occurs.cardinality
  split <;> rfl

end ContentModel
