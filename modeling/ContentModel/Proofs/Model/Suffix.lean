import ContentModel.Occurs
import Std.Data.String.ToNat

/-!
# The written form of bounds

Bounds are written behind what they apply to. They can be read back: they end
where a group goes on or is closed (`suffix_append_inj`).
-/

namespace ContentModel

/-! ## Cutting a text in two -/

/-- Two texts are cut at the same place where a property of their characters
ends. -/
theorem append_inj_of_head {property : Char → Prop}
    {left right leftRest rightRest : List Char}
    (leftHas : ∀ c ∈ left, property c) (rightHas : ∀ c ∈ right, property c)
    (leftEnds : ∀ c ∈ leftRest.head?, ¬ property c)
    (rightEnds : ∀ c ∈ rightRest.head?, ¬ property c)
    (same : left ++ leftRest = right ++ rightRest) :
    left = right ∧ leftRest = rightRest := by
  induction left generalizing right with
  | nil =>
      cases right with
      | nil =>
          exact ⟨rfl, same⟩
      | cons c right =>
          rw [List.nil_append] at same
          apply absurd (rightHas c List.mem_cons_self)
          apply leftEnds
          rw [same]
          rfl
  | cons c left inductionHypothesis =>
      cases right with
      | nil =>
          rw [List.nil_append] at same
          apply absurd (leftHas c List.mem_cons_self)
          apply rightEnds
          rw [← same]
          rfl
      | cons d right =>
          obtain ⟨sameHead, sameTail⟩ := List.cons.inj same
          obtain ⟨sameLeft, sameRest⟩ := inductionHypothesis
            (fun c member => leftHas c (List.mem_cons_of_mem _ member))
            (fun c member => rightHas c (List.mem_cons_of_mem _ member))
            sameTail
          exact ⟨by rw [sameHead, sameLeft], sameRest⟩

/-! ## Bounds -/

/-- What may come after a model: a separator, the end of a group or nothing. -/
def Follows (rest : List Char) : Prop :=
  ∀ c ∈ rest.head?, c = ',' ∨ c = '|' ∨ c = ')'

namespace Occurs

/-- The decimal digits of a number. -/
def digits (number : Nat) : List Char :=
  (toString number).toList

theorem digits_inj {left right : Nat} (same : digits left = digits right) :
    left = right :=
  Nat.repr_inj.mp (String.toList_inj.mp same)

theorem isDigit_of_mem_digits {number : Nat} {c : Char}
    (member : c ∈ digits number) : c.isDigit = true := by
  rw [digits, Nat.toString_eq_repr, Nat.toList_repr] at member
  exact Nat.isDigit_of_mem_toDigits (by decide) (by decide) member

theorem digits_ne_nil (number : Nat) : digits number ≠ [] := by
  rw [digits, Nat.toString_eq_repr, Nat.toList_repr]
  exact Nat.toDigits_ne_nil

/-- A number ends where the next sign comes. -/
theorem digits_append_inj {left right : Nat} {c d : Char}
    {leftRest rightRest : List Char}
    (leftEnds : c.isDigit = false) (rightEnds : d.isDigit = false)
    (same : digits left ++ c :: leftRest = digits right ++ d :: rightRest) :
    left = right ∧ c = d ∧ leftRest = rightRest := by
  obtain ⟨sameDigits, sameRest⟩ := append_inj_of_head
    (fun _ member => isDigit_of_mem_digits member)
    (fun _ member => isDigit_of_mem_digits member)
    (by simpa using leftEnds) (by simpa using rightEnds) same
  obtain ⟨sameEnd, sameRest⟩ := List.cons.inj sameRest
  exact ⟨digits_inj sameDigits, sameEnd, sameRest⟩

/-- The greatest number in braces, after the least one. -/
def upperText (min : Nat) : Option Nat → List Char
  | none => [',', '\x7d']
  | some max =>
    if min = max then ['\x7d'] else ',' :: (digits max ++ ['\x7d'])

/-- Bounds as numbers in braces. -/
def bracedText (occurs : Occurs) : List Char :=
  '\x7b' :: (digits occurs.min ++ upperText occurs.min occurs.max)

/-- The written form of bounds. -/
def suffix (occurs : Occurs) : List Char :=
  occurs.cardinality.text.toList

/-- After the least number comes a comma or the closing brace. -/
theorem exists_upperText (min : Nat) (max : Option Nat) :
    ∃ c rest, upperText min max = c :: rest ∧ c.isDigit = false := by
  cases max with
  | none =>
      exact ⟨',', _, rfl, by decide⟩
  | some max =>
      rw [upperText]
      split
      · exact ⟨'\x7d', _, rfl, by decide⟩
      · exact ⟨',', _, rfl, by decide⟩

/-- An open bound is not written like a number. -/
private theorem upperText_none_ne {min max : Nat}
    {leftRest rightRest : List Char} :
    upperText min none ++ leftRest ≠ upperText min (some max) ++ rightRest := by
  intro same
  rw [upperText, upperText] at same
  split at same
  · exact absurd (List.cons.inj same).1 (by decide)
  · obtain ⟨_, sameTail⟩ := List.cons.inj same
    obtain ⟨d, more, isDigits⟩ := List.exists_cons_of_ne_nil (digits_ne_nil max)
    have isDigit : d.isDigit = true :=
      isDigit_of_mem_digits (by rw [isDigits]; exact List.mem_cons_self)
    simp only [isDigits, List.cons_append] at sameTail
    rw [← (List.cons.inj sameTail).1] at isDigit
    exact absurd isDigit (by decide)

theorem upperText_append_inj {min : Nat} {left right : Option Nat}
    {leftRest rightRest : List Char}
    (same : upperText min left ++ leftRest =
      upperText min right ++ rightRest) :
    left = right ∧ leftRest = rightRest := by
  cases left with
  | none =>
      cases right with
      | none =>
          exact ⟨rfl, List.append_cancel_left same⟩
      | some max =>
          exact absurd same upperText_none_ne
  | some leftMax =>
      cases right with
      | none =>
          exact absurd same.symm upperText_none_ne
      | some rightMax =>
          rw [upperText, upperText] at same
          split at same
          · rename_i leftEq
            split at same
            · rename_i rightEq
              exact ⟨by rw [← leftEq, rightEq], (List.cons.inj same).2⟩
            · exact absurd (List.cons.inj same).1 (by decide)
          · split at same
            · exact absurd (List.cons.inj same).1 (by decide)
            · simp only [List.cons_append, List.append_assoc,
                List.nil_append] at same
              obtain ⟨sameMax, _, sameRest⟩ := digits_append_inj
                (by decide) (by decide) (List.cons.inj same).2
              exact ⟨by rw [sameMax], sameRest⟩

theorem bracedText_append_inj {left right : Occurs}
    {leftRest rightRest : List Char}
    (same : left.bracedText ++ leftRest = right.bracedText ++ rightRest) :
    left = right ∧ leftRest = rightRest := by
  obtain ⟨leftMin, leftMax⟩ := left
  obtain ⟨rightMin, rightMax⟩ := right
  simp only [bracedText, List.cons_append, List.append_assoc] at same
  obtain ⟨_, sameTail⟩ := List.cons.inj same
  obtain ⟨c, leftMore, isLeft, leftEnds⟩ := exists_upperText leftMin leftMax
  obtain ⟨d, rightMore, isRight, rightEnds⟩ :=
    exists_upperText rightMin rightMax
  have cut := sameTail
  rw [isLeft, isRight, List.cons_append, List.cons_append] at cut
  obtain ⟨sameMin, _, _⟩ := digits_append_inj leftEnds rightEnds cut
  subst sameMin
  obtain ⟨sameMax, sameRest⟩ :=
    upperText_append_inj (List.append_cancel_left sameTail)
  exact ⟨by rw [sameMax], sameRest⟩

@[simp] theorem suffix_once : suffix once = [] :=
  rfl

/-- Other bounds are a single sign or numbers in braces. -/
theorem suffix_cases {occurs : Occurs} (notOnce : occurs ≠ once) :
    (occurs = optional ∧ occurs.suffix = ['?']) ∨
    (occurs = zeroOrMore ∧ occurs.suffix = ['*']) ∨
    (occurs = oneOrMore ∧ occurs.suffix = ['+']) ∨
    occurs.suffix = occurs.bracedText := by
  rw [suffix, cardinality.eq_def]
  split
  · exact absurd rfl notOnce
  · exact Or.inl ⟨rfl, rfl⟩
  · exact Or.inr (Or.inl ⟨rfl, rfl⟩)
  · exact Or.inr (Or.inr (Or.inl ⟨rfl, rfl⟩))
  · exact Or.inr (Or.inr (Or.inr rfl))
  · rename_i min max _ _ _ _ _
    refine Or.inr (Or.inr (Or.inr ?_))
    cases max with
    | none =>
        simp [Cardinality.text, bracedText, upperText, digits]
    | some max =>
        rw [Cardinality.text]
        split
        · rename_i sameBounds
          simp [bracedText, upperText, digits, sameBounds]
        · rename_i different
          simp [bracedText, upperText, digits, different]

/-- Bounds that are written do not look like what may come after a model. -/
theorem not_follows_suffix {occurs : Occurs} (notOnce : occurs ≠ once)
    (rest : List Char) : ¬ Follows (occurs.suffix ++ rest) := by
  intro follows
  rcases suffix_cases notOnce with
    ⟨_, isSuffix⟩ | ⟨_, isSuffix⟩ | ⟨_, isSuffix⟩ | isSuffix
  all_goals
    rw [isSuffix] at follows
    have impossible := follows _ rfl
    revert impossible
    decide

private theorem suffix_append_inj_of_ne {left right : Occurs}
    {leftRest rightRest : List Char}
    (leftWritten : left ≠ once) (rightWritten : right ≠ once)
    (same : left.suffix ++ leftRest = right.suffix ++ rightRest) :
    left = right ∧ leftRest = rightRest := by
  rcases suffix_cases leftWritten with
    ⟨isLeft, leftSuffix⟩ | ⟨isLeft, leftSuffix⟩ | ⟨isLeft, leftSuffix⟩ |
      leftSuffix
  all_goals
    rcases suffix_cases rightWritten with
      ⟨isRight, rightSuffix⟩ | ⟨isRight, rightSuffix⟩ |
        ⟨isRight, rightSuffix⟩ | rightSuffix
    all_goals
      rw [leftSuffix, rightSuffix] at same
  all_goals first
    | exact bracedText_append_inj same
    | exact ⟨isLeft.trans isRight.symm, List.append_cancel_left same⟩
    | exact absurd (List.cons.inj same).1 (by decide)

/-- Bounds end where what comes after the model begins. -/
theorem suffix_append_inj {left right : Occurs}
    {leftRest rightRest : List Char}
    (leftFollows : Follows leftRest) (rightFollows : Follows rightRest)
    (same : left.suffix ++ leftRest = right.suffix ++ rightRest) :
    left = right ∧ leftRest = rightRest := by
  by_cases leftOnce : left = once
  · subst leftOnce
    by_cases rightOnce : right = once
    · subst rightOnce
      exact ⟨rfl, same⟩
    · rw [suffix_once, List.nil_append] at same
      rw [same] at leftFollows
      exact absurd leftFollows (not_follows_suffix rightOnce rightRest)
  · by_cases rightOnce : right = once
    · subst rightOnce
      rw [suffix_once, List.nil_append] at same
      rw [← same] at rightFollows
      exact absurd rightFollows (not_follows_suffix leftOnce leftRest)
    · exact suffix_append_inj_of_ne leftOnce rightOnce same

end Occurs

end ContentModel
