import Mathlib.Data.Set.Card
import ContentModel.Proofs.Automaton.OfModel
import ContentModel.Proofs.Automaton.StateSets

/-!
# The states of a model

The states of the automaton of a model are sets of points. Which of them are met
depends on the model alone. Main statement: `compileModel_states`, a compilation
makes a node for each state, or gives up if there are more of them than the
store allows.
-/

namespace ContentModel

open FragmentGraph Automaton

namespace Model

/-- The state in which the automaton of the model starts. -/
def firstState (model : Model) : List Nat :=
  match model.lowered with
  | .ok (fragment, graph) => graph.closureOf fragment.exit [fragment.entry]
  | .error _ => []

/-- What the state of a set of points is. -/
def stateStep (model : Model) (set : List Nat) : SubsetStep (List Nat) :=
  match model.lowered with
  | .ok (fragment, graph) => graph.setSpec fragment.exit set
  | .error _ => .empty

/-- The states of the automaton of the model. -/
def states (model : Model) : Set (List Nat) :=
  { set | Met model.stateStep model.firstState set }

/-- The automaton of the model has more states than this. -/
def Exceeds (model : Model) (limit : Nat) : Prop :=
  limit < model.states.encard

/-- There is the state in which the automaton starts. -/
theorem exceeds_zero (model : Model) : model.Exceeds 0 := by
  rw [Exceeds, Nat.cast_zero, Set.encard_pos]
  exact ⟨model.firstState, met_start model.stateStep model.firstState⟩

section Lowered

variable {model : Model} {fragment : Fragment} {graph : FragmentGraph}
  (isLowered : model.lowered = .ok (fragment, graph))

include isLowered

theorem firstState_eq :
    model.firstState = graph.closureOf fragment.exit [fragment.entry] := by
  rw [firstState, isLowered]

theorem stateStep_eq : model.stateStep = graph.setSpec fragment.exit := by
  funext set
  rw [stateStep, isLowered]

theorem states_eq : model.states = graph.stateSets fragment := by
  rw [states, stateSets, firstState_eq isLowered, stateStep_eq isLowered]

end Lowered

end Model

namespace Automaton.Store

variable {base : Store} {model : Model}

/-- A state has one successor for a name. -/
theorem exists_table_of_mem_states (ordered : model.BoundsOrdered)
    {set : List Nat} (member : set ∈ model.states) :
    ∃ (accepting : Bool) (table : AtomMap (List Nat)),
      model.stateStep set = .expand accepting table.entries := by
  obtain ⟨fragment, graph, region, isLowered, whole, _⟩ :=
    lowered_region ordered
  have inside : ∀ id ∈ [fragment.entry], id ∈ insert pastExit region :=
    List.forall_mem_singleton.mpr
      (Set.mem_insert_of_mem pastExit whole.entry_mem)
  have met : Met model.stateStep model.firstState set := member
  rw [Model.stateStep_eq isLowered, Model.firstState_eq isLowered] at met
  rw [Model.stateStep_eq isLowered]
  obtain ⟨table, isTable, _⟩ :=
    setSpec_eq whole.stays (met_attentive whole.stays inside met)
  exact ⟨_, _, isTable⟩

theorem isExpand_of_mem_states (ordered : model.BoundsOrdered)
    {set : List Nat} (member : set ∈ model.states) :
    (model.stateStep set).IsExpand := by
  obtain ⟨accepting, table, isStep⟩ :=
    exists_table_of_mem_states ordered member
  exact ⟨accepting, table.entries, isStep⟩

/-- A compilation does not fail: it makes a node for each state, or gives up if
the store does not allow so many. -/
theorem compileModel_states (sound : base.Sound)
    (ordered : model.BoundsOrdered) :
    (∃ (states : List (List Nat)) (nodeOf : List Nat → Nat) (after : Store),
      base.compileModel model =
        .ok (.ok (nodeOf model.firstState), after) ∧
      ¬ model.Exceeds base.stateLimit ∧
      Built base model.stateStep model.firstState states nodeOf after) ∨
    (∃ after, base.compileModel model =
        .ok (.error ⟨base.stateLimit⟩, after) ∧
      model.Exceeds base.stateLimit ∧
      Grown base [] after) := by
  obtain ⟨fragment, graph, region, isLowered, whole, _⟩ :=
    lowered_region ordered
  have isCompile :
      base.compileModel model = base.compile graph fragment := by
    rw [compileModel_eq, isLowered]
    rfl
  have outcome := compile_stateSets sound whole.stays
    (Set.mem_insert_of_mem pastExit whole.entry_mem)
  rw [← Model.states_eq isLowered, ← Model.firstState_eq isLowered,
    ← Model.stateStep_eq isLowered, ← isCompile] at outcome
  simp only [Model.Exceeds, not_lt]
  exact outcome

end Automaton.Store

end ContentModel
