import ContentModel.Proofs.Automaton.Rewiring
import ContentModel.Proofs.Fragment.Repetition

/-!
# Automata of repeated fragments

A fragment that leads nowhere yet may be wired in any way. What is built from it
with bounds is compiled to as many of its words as the bounds admit, whether the
bounds have an operator of their own or not. Main statement:
`yields_repeats`.
-/

namespace ContentModel.FragmentGraph

variable {thorough : Prop} {graph : FragmentGraph} {fragment : Fragment}
  {language : Language String}

/-- The operation gives a fragment, and if its graph has a number for each of
its points, the fragment is compiled to the language. -/
def Yields (result : Except Fault (Fragment × FragmentGraph))
    (language : Language String) : Prop :=
  ∃ whole after, result = .ok (whole, after) ∧
    (after.size ≤ pastExit →
      ∃ states, after.CompilesTo whole states language)

theorem Builds.yields {changed : Set Nat} {low : Nat}
    {result : Except Fault (Fragment × FragmentGraph)}
    (builds : Builds thorough graph changed low language result) :
    Yields result language := by
  obtain ⟨whole, after, isResult, placed, _⟩ := builds
  obtain ⟨region, _, hasRegion⟩ := placed.region
  refine ⟨whole, after, isResult, fun numbered => ?_⟩
  rw [← placed.language]
  exact ⟨_, compilesTo_of_region hasRegion numbered⟩

/-- A fragment that leads nowhere is placed among the points of its graph. -/
theorem Passable.placed (passable : graph.Passable fragment)
    (ends : graph.successors fragment.exit = []) :
    Placed False graph [] 0 graph.size fragment (graph.language fragment) where
  region :=
    ⟨_, fun id comes => ⟨Nat.zero_le id, passable.present id comes⟩,
      passable.hasRegion⟩
  onward := ends
  language := rfl

/-- Built with bounds, a fragment is compiled to as many of its words as the
bounds admit, and so it is with the operators that stand for common bounds. -/
theorem yields_repeats (passable : graph.Passable fragment)
    (ends : graph.successors fragment.exit = []) :
    Yields (.ok (fragment, graph)) (graph.language fragment) ∧
    (∀ occurs : Occurs, occurs.Ordered →
      Yields (graph.bounded fragment occurs.min occurs.max)
        (occurs.repeats (graph.language fragment)) ∧
      Yields (graph.occurring fragment occurs)
        (occurs.repeats (graph.language fragment))) ∧
    Yields (graph.optional fragment)
      (Occurs.repeats ⟨0, some 1⟩ (graph.language fragment)) ∧
    Yields (graph.zeroOrMore fragment)
      (Occurs.repeats ⟨0, none⟩ (graph.language fragment)) ∧
    Yields (graph.oneOrMore fragment)
      (Occurs.repeats ⟨1, none⟩ (graph.language fragment)) ∧
    Yields (.ok graph.nothing)
      (Occurs.repeats ⟨0, some 0⟩ (graph.language fragment)) ∧
    Yields (.ok (fragment, graph))
      (Occurs.repeats ⟨1, some 1⟩ (graph.language fragment)) := by
  have placed := passable.placed ends
  have occurring : ∀ occurs : Occurs, occurs.Ordered →
      Yields (graph.occurring fragment occurs)
        (occurs.repeats (graph.language fragment)) :=
    fun _ ordered => (builds_occurring placed ordered).yields
  refine ⟨?_, fun occurs ordered => ⟨?_, occurring occurs ordered⟩,
    occurring ⟨0, some 1⟩ (by decide), occurring ⟨0, none⟩ (by decide),
    occurring ⟨1, none⟩ (by decide), occurring ⟨0, some 0⟩ (by decide),
    occurring ⟨1, some 1⟩ (by decide)⟩
  · exact ⟨fragment, graph, rfl, fun numbered =>
      ⟨_, compilesTo_of_region passable.hasRegion numbered⟩⟩
  · exact (builds_bounded placed ordered).yields

/-- A point that may be passed again and again, before an exit. -/
def repeatedPoint : FragmentGraph :=
  ⟨#[{ atom := some (.ofElement "a"), successors := [0, 1] }, {}]⟩

theorem yields_repeats_repeatedPoint :
    repeatedPoint.Passable ⟨0, 1⟩ ∧ repeatedPoint.successors 1 = [] ∧
    ∃ whole after states,
      repeatedPoint.bounded ⟨0, 1⟩ 2 (some 3) = .ok (whole, after) ∧
      after.CompilesTo whole states
        (Occurs.repeats ⟨2, some 3⟩ (repeatedPoint.language ⟨0, 1⟩)) := by
  have passable : repeatedPoint.Passable ⟨0, 1⟩ :=
    passable_of_forall (.single ⟨by decide, by decide⟩) (by decide)
      (by decide)
  have ends : repeatedPoint.successors 1 = [] := by
    decide
  obtain ⟨_, bounded, _⟩ := yields_repeats passable ends
  obtain ⟨whole, after, isWhole, compiles⟩ :=
    (bounded ⟨2, some 3⟩ (by decide)).1
  have numbered : after.size ≤ pastExit := by
    cases isWhole
    decide
  obtain ⟨states, compiles⟩ := compiles numbered
  exact ⟨passable, ends, whole, after, states, isWhole, compiles⟩

end ContentModel.FragmentGraph
