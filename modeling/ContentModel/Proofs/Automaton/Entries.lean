import ContentModel.Proofs.Automaton.Listing
import ContentModel.Proofs.Model.Suffix

/-!
# Reading a listing back

A line of a listing tells whether its node accepts, what it stands for, and to
which lines names lead from it. Main statement: `pageChars_inj`, no two
sequences of such entries are written alike, as long as the names hold no sign
of the notation. The number of a line is known from its place, a name ends at
the first space, a number ends at the next sign and a line at its break.
-/

namespace ContentModel.Automaton

/-- A name that holds no sign of a listing. -/
def ListableName (name : String) : Prop :=
  name ≠ "" ∧
    ∀ c ∈ name.toList, c ≠ ' ' ∧ c ≠ ',' ∧ c ≠ '*' ∧ c ≠ '\n'

instance (name : String) : Decidable (ListableName name) :=
  haveI := List.decidableBAll
    (fun c => c ≠ ' ' ∧ c ≠ ',' ∧ c ≠ '*' ∧ c ≠ '\n') name.toList
  inferInstanceAs (Decidable (_ ∧ _))

/-- What a line of a listing tells of its node. -/
structure Entry where
  accepting : Bool
  role : Role
  /-- The names with the numbers of the lines to which they lead. -/
  steps : List (String × Nat)
  deriving DecidableEq

/-- The entry of a node, where `lineOf` numbers the lines of its targets. -/
def Node.entry (node : Node) (lineOf : Nat → Nat) : Entry where
  accepting := node.accepting
  role := node.role
  steps := node.transitions.pairs.map fun pair => (pair.1, lineOf pair.2)

namespace Entry

open Occurs (digits)

/-! ## The signs of a line -/

def stepChars (step : String × Nat) : List Char :=
  step.1.toList ++ ' ' :: '→' :: ' ' :: 'D' :: digits step.2

/-- The steps after the first one. -/
def laterChars : List (String × Nat) → List Char
  | [] => []
  | step :: steps => ',' :: ' ' :: (stepChars step ++ laterChars steps)

def stepsChars : List (String × Nat) → List Char
  | [] => ['∅']
  | step :: steps => stepChars step ++ laterChars steps

/-- What is written behind the mark of a line. -/
def bodyChars (entry : Entry) (line : Nat) : List Char :=
  match entry.role with
  | .any => '*' :: ' ' :: '→' :: ' ' :: 'D' :: digits line
  | .empty => ['E', 'M', 'P', 'T', 'Y']
  | .ordinary => stepsChars entry.steps

def markChars (accepting : Bool) : List Char :=
  if accepting then [' ', '✓', ':', ' '] else [':', ' ']

/-- A line without its break. -/
def chars (entry : Entry) (line : Nat) : List Char :=
  'D' :: (digits line ++ (markChars entry.accepting ++ entry.bodyChars line))

/-- The lines of a listing from a number on. -/
def pageChars : Nat → List Entry → List Char
  | _, [] => []
  | line, entry :: entries =>
    entry.chars line ++ '\n' :: pageChars (line + 1) entries

/-- Steps are put down one after the other, with a comma between them. -/
theorem toList_arrows (step : String × Nat) (steps : List (String × Nat)) :
    (", ".intercalate <| (step :: steps).map fun step =>
      step.1 ++ " → D" ++ toString step.2).toList =
      stepChars step ++ laterChars steps := by
  rw [String.toList_intercalate]
  induction steps generalizing step with
  | nil =>
      simp [stepChars, laterChars, digits]
  | cons next steps inductionHypothesis =>
      have shorter := inductionHypothesis next
      rw [List.map_cons, List.map_cons] at shorter
      rw [List.map_cons, List.map_cons, List.map_cons, List.map_cons,
        List.intercalate_cons_cons, shorter]
      simp [stepChars, laterChars, digits]

theorem toList_nodeText (node : Node) (line : Nat) (lineOf : Nat → Nat) :
    (Reader.nodeText node line lineOf).toList =
      (node.entry lineOf).bodyChars line := by
  rw [Reader.nodeText_eq, bodyChars]
  cases isRole : node.role with
  | any =>
      simp only [Node.entry, isRole, String.toList_append]
      rfl
  | empty =>
      simp [Node.entry, isRole]
  | ordinary =>
      simp only [Node.entry, isRole]
      rw [Reader.arrows_eq, Reader.isEmpty_eq]
      cases node.transitions.pairs.map fun pair =>
          (pair.1, lineOf pair.2) with
      | nil =>
          rfl
      | cons step steps =>
          exact toList_arrows step steps

theorem toList_lineText (node : Node) (line : Nat) (lineOf : Nat → Nat) :
    (Reader.lineText node line lineOf).toList =
      (node.entry lineOf).chars line ++ ['\n'] := by
  have mark : (if node.accepting then " ✓: " else ": ").toList =
      markChars node.accepting := by
    cases node.accepting with
    | true => rfl
    | false => rfl
  rw [Reader.lineText]
  simp only [String.toList_append, toList_nodeText, mark]
  simp [chars, digits, Node.entry]

/-! ## What is read back -/

/-- The names of the entry hold no sign of the notation, and names lead on from
ordinary nodes alone. -/
structure Plain (entry : Entry) : Prop where
  listable : ∀ step ∈ entry.steps, ListableName step.1
  bare : entry.role ≠ .ordinary → entry.steps = []

/-- What comes after a number among the steps of a line: a comma or nothing. -/
theorem not_isDigit_laterChars (steps : List (String × Nat)) :
    ∀ c ∈ (laterChars steps).head?, ¬ c.isDigit = true := by
  cases steps with
  | nil =>
      intro c impossible
      cases impossible
  | cons step steps =>
      intro c isHead
      cases isHead
      decide

/-- A step can be read off the beginning of a line. -/
theorem stepChars_append_inj {left right : String × Nat}
    {lefts rights : List (String × Nat)} (leftListable : ListableName left.1)
    (rightListable : ListableName right.1)
    (same : stepChars left ++ laterChars lefts =
      stepChars right ++ laterChars rights) :
    left = right ∧ laterChars lefts = laterChars rights := by
  rw [stepChars, stepChars, List.append_assoc, List.append_assoc] at same
  have leftNoSpace : ∀ c ∈ left.1.toList, c ≠ ' ' :=
    fun c member => (leftListable.2 c member).1
  have rightNoSpace : ∀ c ∈ right.1.toList, c ≠ ' ' :=
    fun c member => (rightListable.2 c member).1
  obtain ⟨sameName, sameRest⟩ :=
    append_inj_of_head leftNoSpace rightNoSpace (by simp) (by simp) same
  simp only [List.cons_append, List.cons.injEq, true_and] at sameRest
  have areDigits : ∀ number, ∀ c ∈ digits number, c.isDigit = true :=
    fun _ _ member => Occurs.isDigit_of_mem_digits member
  obtain ⟨sameDigits, sameLater⟩ :=
    append_inj_of_head (areDigits left.2) (areDigits right.2)
      (not_isDigit_laterChars lefts) (not_isDigit_laterChars rights) sameRest
  exact ⟨Prod.ext (String.toList_inj.mp sameName) (Occurs.digits_inj sameDigits),
    sameLater⟩

theorem laterChars_inj {left right : List (String × Nat)}
    (leftListable : ∀ step ∈ left, ListableName step.1)
    (rightListable : ∀ step ∈ right, ListableName step.1)
    (same : laterChars left = laterChars right) : left = right := by
  induction left generalizing right with
  | nil =>
      cases right with
      | nil =>
          rfl
      | cons step steps =>
          cases same
  | cons step steps inductionHypothesis =>
      cases right with
      | nil =>
          cases same
      | cons other others =>
          simp only [laterChars, List.cons.injEq, true_and] at same
          obtain ⟨sameStep, sameLater⟩ := stepChars_append_inj
            (leftListable step List.mem_cons_self)
            (rightListable other List.mem_cons_self) same
          have sameSteps := inductionHypothesis
            (fun step member => leftListable step (List.mem_cons_of_mem _ member))
            (fun step member => rightListable step (List.mem_cons_of_mem _ member))
            sameLater
          rw [sameStep, sameSteps]

theorem space_mem_stepChars (step : String × Nat) : ' ' ∈ stepChars step :=
  List.mem_append_right _ List.mem_cons_self

/-- A line without a space behind its mark has no steps. -/
theorem eq_nil_of_stepsChars {steps : List (String × Nat)} {signs : List Char}
    (same : stepsChars steps = signs) (noSpace : ' ' ∉ signs) : steps = [] := by
  cases steps with
  | nil =>
      rfl
  | cons step steps =>
      apply absurd _ noSpace
      rw [← same]
      exact List.mem_append_left _ (space_mem_stepChars step)

theorem stepsChars_inj {left right : List (String × Nat)}
    (leftListable : ∀ step ∈ left, ListableName step.1)
    (rightListable : ∀ step ∈ right, ListableName step.1)
    (same : stepsChars left = stepsChars right) : left = right := by
  have noSpace : ' ' ∉ stepsChars [] := by
    decide
  cases left with
  | nil =>
      exact (eq_nil_of_stepsChars same.symm noSpace).symm
  | cons step steps =>
      cases right with
      | nil =>
          exact eq_nil_of_stepsChars same noSpace
      | cons other others =>
          apply laterChars_inj leftListable rightListable
          exact congrArg (',' :: ' ' :: ·) same

/-- No name begins with the star that stands for every name. -/
theorem stepsChars_ne_star {steps : List (String × Nat)}
    (listable : ∀ step ∈ steps, ListableName step.1) (rest : List Char) :
    stepsChars steps ≠ '*' :: rest := by
  cases steps with
  | nil =>
      exact fun same => absurd (List.cons.inj same).1 (by decide)
  | cons step steps =>
      intro same
      obtain ⟨nonempty, signs⟩ := listable step List.mem_cons_self
      cases isName : step.1.toList with
      | nil =>
          exact nonempty (String.toList_eq_nil_iff.mp isName)
      | cons c name =>
          have notStar : c ≠ '*' :=
            (signs c (by rw [isName]; exact List.mem_cons_self)).2.2.1
          rw [stepsChars, stepChars, isName] at same
          exact notStar (List.cons.inj same).1

theorem stepsChars_ne_empty (steps : List (String × Nat)) :
    stepsChars steps ≠ ['E', 'M', 'P', 'T', 'Y'] := by
  intro same
  have isNil := eq_nil_of_stepsChars same (by decide)
  rw [isNil] at same
  exact absurd same (by decide)

/-- What is written behind the mark tells what a node stands for. -/
theorem bodyChars_inj {left right : Entry} (leftPlain : left.Plain)
    (rightPlain : right.Plain) {line : Nat}
    (same : left.bodyChars line = right.bodyChars line) :
    left.role = right.role ∧ left.steps = right.steps := by
  have bothBare : left.role ≠ .ordinary → left.role = right.role →
      left.steps = right.steps := by
    intro notOrdinary sameRole
    rw [leftPlain.bare notOrdinary, rightPlain.bare (sameRole ▸ notOrdinary)]
  rw [bodyChars, bodyChars] at same
  cases leftRole : left.role with
  | any =>
      cases rightRole : right.role with
      | any =>
          rw [leftRole, rightRole] at bothBare
          exact ⟨rfl, bothBare (by decide) rfl⟩
      | empty =>
          rw [leftRole, rightRole] at same
          exact absurd (List.cons.inj same).1 (by decide)
      | ordinary =>
          rw [leftRole, rightRole] at same
          exact absurd same.symm (stepsChars_ne_star rightPlain.listable _)
  | empty =>
      cases rightRole : right.role with
      | any =>
          rw [leftRole, rightRole] at same
          exact absurd (List.cons.inj same).1 (by decide)
      | empty =>
          rw [leftRole, rightRole] at bothBare
          exact ⟨rfl, bothBare (by decide) rfl⟩
      | ordinary =>
          rw [leftRole, rightRole] at same
          exact absurd same.symm (stepsChars_ne_empty right.steps)
  | ordinary =>
      cases rightRole : right.role with
      | any =>
          rw [leftRole, rightRole] at same
          exact absurd same (stepsChars_ne_star leftPlain.listable _)
      | empty =>
          rw [leftRole, rightRole] at same
          exact absurd same (stepsChars_ne_empty left.steps)
      | ordinary =>
          rw [leftRole, rightRole] at same
          exact ⟨rfl,
            stepsChars_inj leftPlain.listable rightPlain.listable same⟩

theorem markChars_append_inj {left right : Bool} {leftRest rightRest : List Char}
    (same : markChars left ++ leftRest = markChars right ++ rightRest) :
    left = right ∧ leftRest = rightRest := by
  cases left with
  | true =>
      cases right with
      | true =>
          exact ⟨rfl, List.append_cancel_left same⟩
      | false =>
          exact absurd (List.cons.inj same).1 (by decide)
  | false =>
      cases right with
      | true =>
          exact absurd (List.cons.inj same).1 (by decide)
      | false =>
          exact ⟨rfl, List.append_cancel_left same⟩

theorem chars_inj {left right : Entry} (leftPlain : left.Plain)
    (rightPlain : right.Plain) {line : Nat}
    (same : left.chars line = right.chars line) : left = right := by
  rw [chars, chars] at same
  obtain ⟨sameAccepting, sameBody⟩ := markChars_append_inj
    (List.append_cancel_left (List.cons.inj same).2)
  obtain ⟨sameRole, sameSteps⟩ := bodyChars_inj leftPlain rightPlain sameBody
  cases left
  cases right
  simp_all

/-! ## Lines -/

theorem break_notMem_digits (number : Nat) : '\n' ∉ digits number := by
  intro member
  exact absurd (Occurs.isDigit_of_mem_digits member) (by decide)

theorem break_notMem_stepChars {step : String × Nat}
    (listable : ListableName step.1) : '\n' ∉ stepChars step := by
  have notInName : '\n' ∉ step.1.toList := by
    intro member
    exact (listable.2 _ member).2.2.2 rfl
  simp [stepChars, notInName, break_notMem_digits]

theorem break_notMem_laterChars {steps : List (String × Nat)}
    (listable : ∀ step ∈ steps, ListableName step.1) :
    '\n' ∉ laterChars steps := by
  induction steps with
  | nil =>
      exact List.not_mem_nil
  | cons step steps inductionHypothesis =>
      have inStep := break_notMem_stepChars (listable step List.mem_cons_self)
      have inLater := inductionHypothesis fun other member =>
        listable other (List.mem_cons_of_mem _ member)
      simp [laterChars, inStep, inLater]

/-- A line has no break but the one at its end. -/
theorem Plain.break_notMem {entry : Entry} (plain : entry.Plain) (line : Nat) :
    '\n' ∉ entry.chars line := by
  have inBody : '\n' ∉ entry.bodyChars line := by
    rw [bodyChars]
    cases entry.role with
    | any =>
        simp [break_notMem_digits]
    | empty =>
        simp
    | ordinary =>
        have inLater := break_notMem_laterChars plain.listable
        cases isSteps : entry.steps with
        | nil =>
            simp [stepsChars]
        | cons step steps =>
            rw [isSteps] at inLater
            intro member
            exact inLater
              (List.mem_cons_of_mem _ (List.mem_cons_of_mem _ member))
  have inMark : '\n' ∉ markChars entry.accepting := by
    cases entry.accepting with
    | true => decide
    | false => decide
  simp [chars, break_notMem_digits, inMark, inBody]

/-- The entries can be read back from the lines. The induction is on the
entries, line by line. -/
theorem pageChars_inj {line : Nat} {left right : List Entry}
    (leftPlain : ∀ entry ∈ left, entry.Plain)
    (rightPlain : ∀ entry ∈ right, entry.Plain)
    (same : pageChars line left = pageChars line right) : left = right := by
  induction left generalizing line right with
  | nil =>
      cases right with
      | nil =>
          rfl
      | cons entry entries =>
          cases same
  | cons entry entries inductionHypothesis =>
      cases right with
      | nil =>
          cases same
      | cons other others =>
          have ownPlain := leftPlain entry List.mem_cons_self
          have otherPlain := rightPlain other List.mem_cons_self
          have ownNoBreak : ∀ c ∈ entry.chars line, c ≠ '\n' :=
            fun _ member isBreak =>
              ownPlain.break_notMem line (isBreak ▸ member)
          have otherNoBreak : ∀ c ∈ other.chars line, c ≠ '\n' :=
            fun _ member isBreak =>
              otherPlain.break_notMem line (isBreak ▸ member)
          obtain ⟨sameLine, sameRest⟩ :=
            append_inj_of_head ownNoBreak otherNoBreak (by simp) (by simp) same
          have sameEntries := inductionHypothesis
            (fun entry member => leftPlain entry (List.mem_cons_of_mem _ member))
            (fun entry member => rightPlain entry (List.mem_cons_of_mem _ member))
            (List.cons.inj sameRest).2
          rw [chars_inj ownPlain otherPlain sameLine, sameEntries]

end Entry

end ContentModel.Automaton
