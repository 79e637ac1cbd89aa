import ContentModel.Proofs.Automaton.OfFragment
import ContentModel.Proofs.Automaton.Reached

/-!
# Automata of fragments of any wiring

A fragment may be wired in any way: points may lead back to themselves without
reading, exits may lead on, and points may lead nowhere or be out of reach. As
long as the points that a walk comes to are points of the graph, the automaton
accepts what is read on the runs of the fragment (`compile_accepts_runs`).
-/

namespace ContentModel

namespace FragmentGraph

open Automaton

variable {graph : FragmentGraph} {fragment : Fragment}

/-- A walk through the fragment comes to the point; it does not go on from the
exit. -/
def ComesTo (graph : FragmentGraph) (fragment : Fragment) : Nat → Prop :=
  Relation.ReflTransGen
    (fun id next => id ≠ fragment.exit ∧ next ∈ graph.successors id)
    fragment.entry

/-- Wherever a walk through the fragment goes on, there is a point of the graph
or the mark. -/
def Charted (graph : FragmentGraph) (fragment : Fragment) : Prop :=
  ∀ id next, graph.ComesTo fragment id → id ≠ fragment.exit →
    next ∈ graph.successors id → next = pastExit ∨ next < graph.size

/-- The closure of a start that is neither a point nor the mark fails. -/
theorem entry_of_closure {exit entry : Nat} {set : List Nat}
    (isSet : graph.closure exit [entry] = .ok set) :
    entry = pastExit ∨ entry < graph.size := by
  rw [closure, bind_eq_ok_iff] at isSet
  obtain ⟨_, isMet, _⟩ := isSet
  obtain ⟨found, answer⟩ := Search.answers_of_depthFirst isMet
  by_contra outside
  rw [not_or, Nat.not_lt] at outside
  rw [silentSteps, if_neg outside.1, point,
    Array.getElem?_eq_none outside.2] at answer
  cases answer

/-- The points that walks come to, and the mark. -/
theorem Charted.within (charted : graph.Charted fragment)
    (numbered : graph.size ≤ pastExit)
    (entry : fragment.entry = pastExit ∨ fragment.entry < graph.size) :
    Within graph fragment.exit
      { id | id = pastExit ∨ graph.ComesTo fragment id } where
  mark_mem := Or.inl rfl
  present := by
    intro id member
    cases member with
    | inl isMark =>
        exact Or.inl isMark
    | inr comes =>
        cases comes with
        | refl =>
            exact entry
        | tail earlier goesOn =>
            exact charted _ _ earlier goesOn.1 goesOn.2
  closed := by
    intro id member isPoint notExit next isNext
    cases member with
    | inl isMark =>
        exact absurd isMark isPoint
    | inr comes =>
        exact Or.inr (comes.tail ⟨notExit, isNext⟩)
  numbered := numbered

end FragmentGraph

namespace Automaton.Store

open FragmentGraph

variable {base after : Store} {graph : FragmentGraph} {fragment : Fragment}
  {start : Nat}

/-- The automaton of a fragment accepts what is read on its runs. -/
theorem compile_accepts_runs (reached : base.Reached)
    (numbered : graph.size < pastExit) (charted : graph.Charted fragment)
    (result : base.compile graph fragment = .ok (.ok start, after))
    (word : List String) :
    ∃ walk, after.walk start word = .ok walk ∧
      (walk.accepted = true ↔
        graph.Runs fragment.exit fragment.entry word) := by
  have entry : fragment.entry = pastExit ∨ fragment.entry < graph.size := by
    have started := result
    rw [compile, bind_eq_ok_iff] at started
    obtain ⟨set, isSet, _⟩ := started
    exact entry_of_closure isSet
  have within := charted.within (Nat.le_of_lt numbered) entry
  have comes : graph.ComesTo fragment fragment.entry :=
    Relation.ReflTransGen.refl
  have inside : ∀ id ∈ [fragment.entry],
      id ∈ { id | id = pastExit ∨ graph.ComesTo fragment id } := by
    intro id isEntry
    rw [List.mem_singleton.mp isEntry]
    exact Or.inr comes
  have sameWords : word ∈ graph.wordsFrom fragment.exit
      (graph.closureOf fragment.exit [fragment.entry]) ↔
      graph.Runs fragment.exit fragment.entry word := by
    rw [wordsFrom_closureOf within inside, mem_wordsFrom_iff]
    simp only [List.mem_singleton, exists_eq_left]
  rcases compile_outcome reached.sound within.toStays (Or.inr comes) with
    ⟨keys, nodeOf, store, isResult, _, built⟩ | ⟨_, store, isResult, _⟩
  · rw [result] at isResult
    cases isResult
    have walks := built.walk_of_steps
      (fun key met => met_isExpand within.toStays inside met)
      (solves_wordsFrom within inside)
      (fun key accepting edges met isStep =>
        setSpec_accepting within inside met isStep) word
    rw [sameWords] at walks
    exact walks
  · rw [result] at isResult
    cases isResult

/-- A loop that reads nothing at the entry, a point that leads nowhere, an exit
that leads out of the graph and a point that leads to the mark. -/
def loopedEntry : FragmentGraph :=
  ⟨#[{ successors := [1, 0, 3] },
    { atom := some (.ofElement "a"), successors := [0, 2] },
    { successors := [9] },
    { atom := some (.ofElement "b"), successors := [4, pastExit] },
    { atom := some (.ofElement "c") }]⟩

theorem compile_accepts_runs_loopedEntry :
    loopedEntry.Charted ⟨0, 2⟩ ∧
    ∃ start after,
      ({} : Store).compile loopedEntry ⟨0, 2⟩ = .ok (.ok start, after) ∧
      ∃ walk, after.walk start ["a", "b"] = .ok walk ∧
        (walk.accepted = true ↔ loopedEntry.Runs 2 0 ["a", "b"]) := by
  have charted : loopedEntry.Charted ⟨0, 2⟩ := by
    have each : ∀ id < loopedEntry.size, id ≠ 2 →
        ∀ next ∈ loopedEntry.successors id,
          next = pastExit ∨ next < loopedEntry.size := by
      decide
    intro id next _ notExit isNext
    exact each id (lt_size_of_mem_successors isNext) notExit next isNext
  exact ⟨charted, _, _, rfl,
    compile_accepts_runs .new (by decide) charted rfl ["a", "b"]⟩

end Automaton.Store

end ContentModel
