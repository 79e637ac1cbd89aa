import ContentModel.Proofs.Grammar.Publishing

/-!
# Attributes of published elements

Attributes wait apart from the elements until everything is declared. So it does
not matter whether they are declared before their element, after it or between
two declarations of it: of each name the first one is kept.

Main statement: `publish_attributes`.
-/

namespace ContentModel

namespace Declarations

variable {calls others : List Call} {name : String}

theorem Finds.attributes_eq {element : Element}
    (finds : Finds calls name (some element)) :
    element.attributes = firstAttributes name calls := by
  cases finds with
  | declared _ _ _ isAttributes => exact isAttributes
  | undefined _ _ _ _ isAttributes => exact isAttributes

theorem Finds.isSome_iff {found : Option Element}
    (finds : Finds calls name found) :
    (∃ element, found = some element) ↔
      lastContent name calls ≠ none ∨ Mentioned name calls := by
  cases finds with
  | declared isContent _ _ _ =>
      refine iff_of_true ⟨_, rfl⟩ (Or.inl ?_)
      rw [isContent]
      exact Option.some_ne_none _
  | undefined _ mentioned _ _ _ =>
      exact iff_of_true ⟨_, rfl⟩ (Or.inr mentioned)
  | missing noContent notMentioned =>
      apply iff_of_false
      · intro isFound
        obtain ⟨element, impossible⟩ := isFound
        cases impossible
      · intro either
        cases either with
        | inl isContent => exact isContent noContent
        | inr mentioned => exact notMentioned mentioned

theorem lastContent_eq_none_iff :
    lastContent name calls = none ↔
      ∀ call ∈ calls, call.contentOf name = none := by
  induction calls with
  | nil =>
      exact iff_of_true rfl fun _ impossible =>
        absurd impossible List.not_mem_nil
  | cons call calls inductionHypothesis =>
      rw [lastContent, Option.or_eq_none_iff, inductionHypothesis,
        List.forall_mem_cons, and_comm]

/-- Which names are found does not depend on the order of the calls. -/
theorem known_congr (sameCalls : ∀ call, call ∈ calls ↔ call ∈ others) :
    lastContent name calls ≠ none ∨ Mentioned name calls ↔
      lastContent name others ≠ none ∨ Mentioned name others := by
  have sameLists :
      attributeLists name calls = [] ↔ attributeLists name others = [] := by
    simp only [attributeLists, List.filterMap_eq_nil_iff, sameCalls]
  simp only [Mentioned, ne_eq, lastContent_eq_none_iff, sameLists, sameCalls]

/-- Calls in any order do not fail. If no error was recorded, every element that
is declared or has attributes is found, and its attributes are the first ones of
each name in the order of their declaration. Calls that declare the same
attributes for each element in the same order, whatever stands between them,
give the same attributes to the elements that they have in common, and these are
all of them if the calls differ in their order alone. -/
theorem publish_attributes (ordered : ∀ call ∈ calls, call.BoundsOrdered)
    (othersOrdered : ∀ call ∈ others, call.BoundsOrdered) :
    ∃ declarations further,
      run calls = .ok declarations ∧ run others = .ok further ∧
      (declarations.error = none → ∀ name,
        (lastContent name calls ≠ none ∨ attributeLists name calls ≠ [] →
          ∃ element, declarations.publish.findElement? name =
            .ok (some element)) ∧
        ∀ element,
          declarations.publish.findElement? name = .ok (some element) →
          element.attributes = firstAttributes name calls) ∧
      (declarations.error = none → further.error = none →
        (∀ name, attributeLists name calls = attributeLists name others) →
        (∀ name element other,
          declarations.publish.findElement? name = .ok (some element) →
          further.publish.findElement? name = .ok (some other) →
          element.attributes = other.attributes) ∧
        ((∀ call, call ∈ calls ↔ call ∈ others) → ∀ name,
          (∃ element, declarations.publish.findElement? name =
            .ok (some element)) ↔
          ∃ other, further.publish.findElement? name =
            .ok (some other))) := by
  obtain ⟨declarations, isRun, finds⟩ := publish_finds ordered
  obtain ⟨further, isFurther, furtherFinds⟩ := publish_finds othersOrdered
  refine ⟨declarations, further, isRun, isFurther, ?_, ?_⟩
  · intro noError name
    obtain ⟨found, isFound, foundFinds⟩ := finds noError name
    rw [isFound]
    constructor
    · intro isKnown
      obtain ⟨element, same⟩ :=
        foundFinds.isSome_iff.mpr (isKnown.imp_right Or.inl)
      exact ⟨element, congrArg Except.ok same⟩
    · intro element same
      cases same
      exact foundFinds.attributes_eq
  · intro noError furtherNoError sameLists
    constructor
    · intro name element other isElement isOther
      obtain ⟨found, isFound, foundFinds⟩ := finds noError name
      obtain ⟨furtherFound, isFurtherFound, furtherFoundFinds⟩ :=
        furtherFinds furtherNoError name
      rw [isElement] at isFound
      rw [isOther] at isFurtherFound
      cases isFound
      cases isFurtherFound
      rw [foundFinds.attributes_eq, furtherFoundFinds.attributes_eq,
        firstAttributes, firstAttributes, sameLists]
    · intro sameCalls name
      obtain ⟨found, isFound, foundFinds⟩ := finds noError name
      obtain ⟨furtherFound, isFurtherFound, furtherFoundFinds⟩ :=
        furtherFinds furtherNoError name
      simp only [isFound, isFurtherFound, Except.ok.injEq]
      rw [foundFinds.isSome_iff, furtherFoundFinds.isSome_iff,
        known_congr sameCalls]

/-- An element is declared after all of its attributes. Two of them bear the
same name. -/
def declaredAfter : List Call :=
  [.declareAttributes "a" [⟨.ofAttribute "x", .cdata, .implied⟩],
    .declareAttributes "a" [⟨.ofAttribute "x", .id, .required⟩,
      ⟨.ofAttribute "y", .id, .required⟩],
    .declareElement (.ofElement "a") .empty]

/-- The same element is declared between its attributes. -/
def declaredBetween : List Call :=
  [.declareAttributes "a" [⟨.ofAttribute "x", .cdata, .implied⟩],
    .declareElement (.ofElement "a") .empty,
    .declareAttributes "a" [⟨.ofAttribute "x", .id, .required⟩,
      ⟨.ofAttribute "y", .id, .required⟩]]

theorem publish_attributes_between :
    ∃ declarations further element other,
      run declaredAfter = .ok declarations ∧
      run declaredBetween = .ok further ∧
      declarations.publish.findElement? "a" = .ok (some element) ∧
      further.publish.findElement? "a" = .ok (some other) ∧
      element.attributes = [⟨.ofAttribute "x", .cdata, .implied⟩,
        ⟨.ofAttribute "y", .id, .required⟩] ∧
      element.attributes = other.attributes := by
  have ordered : ∀ call ∈ declaredAfter, call.BoundsOrdered := by
    simp only [declaredAfter, List.forall_mem_cons, List.not_mem_nil,
      false_implies, implies_true, and_true]
    exact ⟨trivial, trivial, trivial⟩
  have othersOrdered : ∀ call ∈ declaredBetween, call.BoundsOrdered := by
    simp only [declaredBetween, List.forall_mem_cons, List.not_mem_nil,
      false_implies, implies_true, and_true]
    exact ⟨trivial, trivial, trivial⟩
  have sameLists : ∀ name,
      attributeLists name declaredAfter =
        attributeLists name declaredBetween := by
    intro name
    simp only [attributeLists, declaredAfter, declaredBetween,
      List.filterMap_cons, Call.attributesOf]
  have sameCalls : ∀ call, call ∈ declaredAfter ↔ call ∈ declaredBetween := by
    intro call
    simp only [declaredAfter, declaredBetween, List.mem_cons, List.not_mem_nil,
      or_false]
    exact or_congr_right or_comm
  obtain ⟨declarations, further, isRun, isFurther, attributes, agree⟩ :=
    publish_attributes ordered othersOrdered
  have noError : declarations.error = none := by
    cases isRun
    rfl
  have furtherNoError : further.error = none := by
    cases isFurther
    rfl
  obtain ⟨isFound, isFirst⟩ := attributes noError "a"
  obtain ⟨element, isElement⟩ := isFound (Or.inl (Option.some_ne_none _))
  obtain ⟨sameAttributes, sameNames⟩ := agree noError furtherNoError sameLists
  obtain ⟨other, isOther⟩ := (sameNames sameCalls "a").mp ⟨element, isElement⟩
  exact ⟨declarations, further, element, other, isRun, isFurther, isElement,
    isOther, isFirst element isElement,
    sameAttributes "a" element other isElement isOther⟩

end Declarations

end ContentModel
