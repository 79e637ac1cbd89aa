import ContentModel.Proofs.Automaton.OfModel
import ContentModel.Proofs.Model.Text

/-!
# Models of one written form

Main statement: models that are written alike become fragments of one language
and automata that accept the same words (`accepted_eq_of_text_eq`).
-/

namespace ContentModel

/-- What is read in what a model became. A model without a fragment stands for
the empty sequence alone. -/
def loweredLanguage : Option Fragment × FragmentGraph → Language String
  | (some fragment, graph) => graph.language fragment
  | (none, _) => 1

namespace Model

theorem Becomes.exists_lowered {before : FragmentGraph}
    {language : Language String}
    {result : Except Fault (Option Fragment × FragmentGraph)}
    (becomes : Becomes before language result) :
    ∃ lowered, result = .ok lowered ∧ loweredLanguage lowered = language := by
  cases becomes with
  | none silent =>
      exact ⟨_, rfl, silent.symm⟩
  | some placed _ =>
      exact ⟨_, rfl, placed.language⟩

end Model

namespace Automaton.Store

/-- Models that are written alike become, in whatever graphs, fragments of one
language. Compiled in whatever stores, they accept the same words. -/
theorem accepted_eq_of_text_eq {left right : Model}
    (leftOrdered : left.BoundsOrdered) (rightOrdered : right.BoundsOrdered)
    (leftPlain : left.NamesPlain) (rightPlain : right.NamesPlain)
    (leftNumbered : left.pointCount < pastExit)
    (rightNumbered : right.pointCount < pastExit)
    (same : left.text = right.text) :
    (∀ leftGraph rightGraph : FragmentGraph,
      ∃ leftLowered rightLowered,
        left.fragment leftGraph = .ok leftLowered ∧
        right.fragment rightGraph = .ok rightLowered ∧
        loweredLanguage leftLowered = loweredLanguage rightLowered) ∧
    ∀ {leftBase leftAfter rightBase rightAfter : Store}
      {leftStart rightStart : Nat},
      leftBase.Reached → rightBase.Reached →
      leftBase.compileModel left = .ok (.ok leftStart, leftAfter) →
      rightBase.compileModel right = .ok (.ok rightStart, rightAfter) →
      ∀ word, ∃ leftWalk rightWalk,
        leftAfter.walk leftStart word = .ok leftWalk ∧
        rightAfter.walk rightStart word = .ok rightWalk ∧
        leftWalk.accepted = rightWalk.accepted := by
  have sameLanguage := Model.language_eq_of_text_eq leftPlain rightPlain same
  constructor
  · intro leftGraph rightGraph
    obtain ⟨leftLowered, isLeft, leftReads⟩ :=
      (Model.fragment_becomes leftOrdered leftGraph).exists_lowered
    obtain ⟨rightLowered, isRight, rightReads⟩ :=
      (Model.fragment_becomes rightOrdered rightGraph).exists_lowered
    refine ⟨leftLowered, rightLowered, isLeft, isRight, ?_⟩
    rw [leftReads, rightReads, sameLanguage]
  · intro leftBase leftAfter rightBase rightAfter leftStart rightStart
      leftReached rightReached leftResult rightResult word
    obtain ⟨_, leftCompiled⟩ :=
      compiled_of_result leftReached leftOrdered leftNumbered leftResult
    obtain ⟨_, rightCompiled⟩ :=
      compiled_of_result rightReached rightOrdered rightNumbered rightResult
    obtain ⟨leftWalk, isLeft, leftAccepts⟩ := leftCompiled.accepts word
    obtain ⟨rightWalk, isRight, rightAccepts⟩ := rightCompiled.accepts word
    refine ⟨leftWalk, rightWalk, isLeft, isRight, ?_⟩
    rw [Bool.eq_iff_iff, leftAccepts, rightAccepts, sameLanguage]

/-- A group of one member, a particle that is not filled in and an empty
group. -/
def oneMemberSequence : Model :=
  .sequence [.sequence [.leaf (.ofElement "a")],
    .withOccurs ⟨2, some 5⟩ (.unknown []), .sequence []]

/-- The same text from the other kinds of particles. -/
def oneMemberChoice : Model :=
  .sequence [.choice [.leaf (.ofElement "a")],
    .withOccurs ⟨2, some 5⟩ (.node { kind := .leaf } []), .choice []]

/-- The automata have no node in common. Both take the one name and none
ends before it. -/
theorem accepted_eq_of_text_eq_oneMember :
    oneMemberSequence.text = oneMemberChoice.text ∧
    (∃ leftLowered rightLowered,
      oneMemberSequence.fragment {} = .ok leftLowered ∧
      oneMemberChoice.fragment {} = .ok rightLowered ∧
      loweredLanguage leftLowered = loweredLanguage rightLowered) ∧
    ∃ leftAfter rightAfter : Store,
      ({} : Store).compileModel oneMemberSequence = .ok (.ok 0, leftAfter) ∧
      leftAfter.compileModel oneMemberChoice = .ok (.ok 2, rightAfter) ∧
      leftAfter.walk 0 ["a"] = .ok ⟨[0, 1], true⟩ ∧
      rightAfter.walk 2 ["a"] = .ok ⟨[2, 3], true⟩ ∧
      leftAfter.walk 0 [] = .ok ⟨[0], false⟩ ∧
      rightAfter.walk 2 [] = .ok ⟨[2], false⟩ ∧
      ∀ word, ∃ leftWalk rightWalk,
        leftAfter.walk 0 word = .ok leftWalk ∧
        rightAfter.walk 2 word = .ok rightWalk ∧
        leftWalk.accepted = rightWalk.accepted := by
  have sameText : oneMemberSequence.text = oneMemberChoice.text := by decide
  have same := accepted_eq_of_text_eq (by decide) (by decide) (by decide)
    (by decide) (by decide) (by decide) sameText
  have isLeft : ({} : Store).compileModel oneMemberSequence =
      .ok (.ok 0, _) := rfl
  exact ⟨sameText, same.1 {} {}, _, _, isLeft, rfl, rfl, rfl, rfl, rfl,
    same.2 .new (.compileModel .new isLeft) isLeft rfl⟩

end Automaton.Store

end ContentModel
