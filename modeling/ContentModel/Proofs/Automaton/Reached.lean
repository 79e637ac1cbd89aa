import ContentModel.Automaton.OfModel
import ContentModel.Automaton.Union
import ContentModel.Proofs.Automaton.Construction
import ContentModel.Proofs.Automaton.Release

/-!
# Stores that operations can make

A store that was made from the empty one by operations that did not fail has
its pool in order. The order of the operations does not matter, nor whether a
construction gave up.
-/

namespace ContentModel.Automaton.Store

/-- The store can be made from the empty one. -/
inductive Reached : Store → Prop
  | new : Reached {}
  | setStateLimit {store : Store} (limit : Nat) :
      Reached store → Reached { store with stateLimit := limit }
  | alloc {store : Store} :
      Reached store → Reached store.alloc.2
  | free {store after : Store} {id : Nat} :
      Reached store → store.free id = .ok after → Reached after
  | release {store after : Store} {start count : Nat} :
      Reached store → store.release start = .ok (count, after) →
      Reached after
  | setAccepting {store after : Store} {id : Nat} {accepting : Bool} :
      Reached store → store.setAccepting id accepting = .ok after →
      Reached after
  | setTransition {store after : Store} {id target : Nat} {atom : Atom}
      {replaced : Option Nat} :
      Reached store →
      store.setTransition id atom target = .ok (replaced, after) →
      Reached after
  | anyNode {store : Store} :
      Reached store → Reached store.anyNode.2
  | emptyNode {store : Store} :
      Reached store → Reached store.emptyNode.2
  | determinize {store after : Store} {κ : Type} [Ord κ] [Std.TransOrd κ]
      [Std.LawfulEqOrd κ] {start : κ}
      {step : Store → κ → Except Fault (SubsetStep κ)}
      {result : Except StateLimitExceeded Nat} :
      Reached store → store.determinize start step = .ok (result, after) →
      Reached after
  | merge {store after : Store} {left right : Nat}
      {result : Except StateLimitExceeded Nat} :
      Reached store → store.merge left right = .ok (result, after) →
      Reached after
  | compile {store after : Store} {graph : FragmentGraph}
      {fragment : Fragment} {result : Except StateLimitExceeded Nat} :
      Reached store → store.compile graph fragment = .ok (result, after) →
      Reached after
  | compileModel {store after : Store} {model : Model}
      {result : Except StateLimitExceeded Nat} :
      Reached store → store.compileModel model = .ok (result, after) →
      Reached after

variable {store after : Store} {result : Except StateLimitExceeded Nat}

/-! ## Operations on single nodes -/

theorem free_eq_ok_iff {id : Nat} :
    store.free id = .ok after ↔
      store.Live id ∧ after = store.recycle id := by
  rw [free, bind_eq_ok_iff, live_iff_slot]
  constructor
  · rintro ⟨slot, isSlot, same⟩
    cases same
    exact ⟨⟨slot, isSlot⟩, rfl⟩
  · rintro ⟨⟨slot, isSlot⟩, rfl⟩
    exact ⟨slot, isSlot, rfl⟩

theorem eq_of_setAccepting {id : Nat} {accepting : Bool}
    (isAfter : store.setAccepting id accepting = .ok after) :
    store.Live id ∧
      after = store.modifyNode id fun node => { node with accepting } := by
  rw [setAccepting, bind_eq_ok_iff] at isAfter
  obtain ⟨slot, isSlot, same⟩ := isAfter
  cases same
  exact ⟨(live_iff_slot store id).mpr ⟨slot, isSlot⟩, rfl⟩

theorem eq_of_setTransition {id target : Nat} {atom : Atom}
    {replaced : Option Nat}
    (isAfter : store.setTransition id atom target = .ok (replaced, after)) :
    ∃ node, store.node id = .ok node ∧ store.Live target ∧
      after = store.modifyNode id fun other =>
        { other with
          transitions := node.transitions.insert atom target } := by
  rw [setTransition, bind_eq_ok_iff] at isAfter
  obtain ⟨slot, isSlot, isAfter⟩ := isAfter
  rw [bind_eq_ok_iff] at isAfter
  obtain ⟨node, isNode, same⟩ := isAfter
  cases same
  exact ⟨node, isNode, (live_iff_slot store target).mpr ⟨slot, isSlot⟩, rfl⟩

theorem sound_setAccepting {id : Nat} {accepting : Bool}
    (sound : store.Sound)
    (isAfter : store.setAccepting id accepting = .ok after) :
    after.Sound := by
  rw [(eq_of_setAccepting isAfter).2]
  exact sound.modifyNode fun _ => ⟨rfl, rfl⟩

theorem sound_setTransition {id target : Nat} {atom : Atom}
    {replaced : Option Nat} (sound : store.Sound)
    (isAfter : store.setTransition id atom target = .ok (replaced, after)) :
    after.Sound := by
  obtain ⟨_, _, _, same⟩ := eq_of_setTransition isAfter
  rw [same]
  exact sound.modifyNode fun _ => ⟨rfl, rfl⟩

/-! ## Constructions -/

/-- A union of different nodes is a construction on sets of nodes. -/
theorem determinize_of_merge {left right : Nat}
    (isAfter : store.merge left right = .ok (result, after)) :
    after = store ∨
      ∃ (start : List Nat)
        (step : Store → List Nat → Except Fault (SubsetStep (List Nat))),
        store.determinize start step = .ok (result, after) := by
  rw [merge] at isAfter
  split at isAfter
  · cases isAfter
    exact Or.inl rfl
  · exact Or.inr ⟨_, _, isAfter⟩

/-- A compilation is a construction on sets of points. -/
theorem determinize_of_compile {graph : FragmentGraph} {fragment : Fragment}
    (isAfter : store.compile graph fragment = .ok (result, after)) :
    ∃ (start : List Nat)
      (step : Store → List Nat → Except Fault (SubsetStep (List Nat))),
      store.determinize start step = .ok (result, after) := by
  rw [compile, bind_eq_ok_iff] at isAfter
  obtain ⟨_, _, isAfter⟩ := isAfter
  exact ⟨_, _, isAfter⟩

theorem determinize_of_compileModel {model : Model}
    (isAfter : store.compileModel model = .ok (result, after)) :
    ∃ (start : List Nat)
      (step : Store → List Nat → Except Fault (SubsetStep (List Nat))),
      store.determinize start step = .ok (result, after) := by
  rw [compileModel, bind_eq_ok_iff] at isAfter
  obtain ⟨⟨fragment, graph⟩, _, isAfter⟩ := isAfter
  cases fragment with
  | none => exact determinize_of_compile isAfter
  | some fragment => exact determinize_of_compile isAfter

theorem grown_merge {left right : Nat} (sound : store.Sound)
    (isAfter : store.merge left right = .ok (result, after)) :
    ∃ created, store.Grown created after := by
  cases determinize_of_merge isAfter with
  | inl same =>
      subst same
      exact ⟨[], grown_start sound⟩
  | inr constructed =>
      obtain ⟨_, _, isResult⟩ := constructed
      exact grown_determinize sound isResult

theorem grown_compile {graph : FragmentGraph} {fragment : Fragment}
    (sound : store.Sound)
    (isAfter : store.compile graph fragment = .ok (result, after)) :
    ∃ created, store.Grown created after := by
  obtain ⟨_, _, isResult⟩ := determinize_of_compile isAfter
  exact grown_determinize sound isResult

theorem grown_compileModel {model : Model} (sound : store.Sound)
    (isAfter : store.compileModel model = .ok (result, after)) :
    ∃ created, store.Grown created after := by
  obtain ⟨_, _, isResult⟩ := determinize_of_compileModel isAfter
  exact grown_determinize sound isResult

/-- The pool of a store that operations made is in order, and so are its
shared nodes. -/
theorem Reached.sound (reached : store.Reached) : store.Sound := by
  induction reached with
  | new =>
      exact sound_new
  | setStateLimit limit _ inductionHypothesis =>
      exact inductionHypothesis.setStateLimit limit
  | alloc _ inductionHypothesis =>
      have introduces := introduces_blank inductionHypothesis.toPooled
      exact introduces.sound inductionHypothesis
  | free _ isAfter inductionHypothesis =>
      obtain ⟨live, rfl⟩ := free_eq_ok_iff.mp isAfter
      exact inductionHypothesis.recycle live
  | release _ isAfter inductionHypothesis =>
      exact (release_spec inductionHypothesis isAfter).1
  | setAccepting _ isAfter inductionHypothesis =>
      exact sound_setAccepting inductionHypothesis isAfter
  | setTransition _ isAfter inductionHypothesis =>
      exact sound_setTransition inductionHypothesis isAfter
  | anyNode _ inductionHypothesis =>
      exact (grown_start inductionHypothesis).anyNode.sound
  | emptyNode _ inductionHypothesis =>
      exact (grown_start inductionHypothesis).emptyNode.sound
  | determinize _ isAfter inductionHypothesis =>
      obtain ⟨_, grown⟩ := grown_determinize inductionHypothesis isAfter
      exact grown.sound
  | merge _ isAfter inductionHypothesis =>
      obtain ⟨_, grown⟩ := grown_merge inductionHypothesis isAfter
      exact grown.sound
  | compile _ isAfter inductionHypothesis =>
      obtain ⟨_, grown⟩ := grown_compile inductionHypothesis isAfter
      exact grown.sound
  | compileModel _ isAfter inductionHypothesis =>
      obtain ⟨_, grown⟩ := grown_compileModel inductionHypothesis isAfter
      exact grown.sound

end ContentModel.Automaton.Store
