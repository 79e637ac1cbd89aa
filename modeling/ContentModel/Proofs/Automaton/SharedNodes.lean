import ContentModel.Proofs.Automaton.Confined
import ContentModel.Proofs.Automaton.Reached

/-!
# What the shared nodes stand for

The two shared nodes accept and have no steps when they are made. A step or a
refusal can still be entered at them, like at any other node, and nothing else
alters them. Main statement: in a run that enters none there the shared nodes
stay as they were made, and one more operation keeps them so exactly if it
enters none either (`Attained.pristine`).
-/

namespace ContentModel.Automaton

/-! ## Operations -/

/-- An operation on a store. -/
inductive Operation : Type 1 where
  | setStateLimit (limit : Nat)
  | alloc
  | free (id : Nat)
  | release (start : Nat)
  | setAccepting (id : Nat) (accepting : Bool)
  | setTransition (id : Nat) (atom : Atom) (target : Nat)
  | anyNode
  | emptyNode
  | determinize {κ : Type} [Ord κ] [Std.TransOrd κ] [Std.LawfulEqOrd κ]
      (start : κ) (step : Store → κ → Except Fault (SubsetStep κ))
  | merge (left right : Nat)
  | compile (graph : FragmentGraph) (fragment : Fragment)
  | compileModel (model : Model)

namespace Operation

/-- The store after the operation, whatever the operation answers. -/
def perform (store : Store) : Operation → Except Fault Store
  | setStateLimit limit => .ok { store with stateLimit := limit }
  | alloc => .ok store.alloc.2
  | free id => store.free id
  | release start => return (← store.release start).2
  | setAccepting id accepting => store.setAccepting id accepting
  | setTransition id atom target =>
    return (← store.setTransition id atom target).2
  | anyNode => .ok store.anyNode.2
  | emptyNode => .ok store.emptyNode.2
  | determinize start step => return (← store.determinize start step).2
  | merge left right => return (← store.merge left right).2
  | compile graph fragment => return (← store.compile graph fragment).2
  | compileModel model => return (← store.compileModel model).2

/-- The operation does not make a shared node refuse the empty word, and gives
it no step. -/
def Spares (store : Store) : Operation → Prop
  | setAccepting id accepting => store.isShared id = true → accepting = true
  | setTransition id _ _ => store.isShared id = false
  | _ => True

end Operation

namespace Store

variable {store after : Store}

/-- The store can be made from the empty one by operations that are
admitted. -/
inductive Attained (admits : Store → Operation → Prop) : Store → Prop
  | new : Attained admits {}
  | perform {store after : Store} (operation : Operation) :
      Attained admits store → admits store operation →
      operation.perform store = .ok after → Attained admits after

theorem perform_eq_ok_iff {α : Type} {outcome : Except Fault (α × Store)} :
    (do return (← outcome).2) = (.ok after : Except Fault Store) ↔
      ∃ answer, outcome = .ok (answer, after) := by
  rw [bind_eq_ok_iff]
  constructor
  · intro isResult
    obtain ⟨⟨answer, other⟩, isOutcome, same⟩ := isResult
    cases same
    exact ⟨answer, isOutcome⟩
  · intro isOutcome
    obtain ⟨answer, isOutcome⟩ := isOutcome
    exact ⟨_, isOutcome, rfl⟩

/-- What operations on a store make, other operations can go on with. -/
theorem Reached.perform (reached : store.Reached) {operation : Operation}
    (result : operation.perform store = .ok after) : after.Reached := by
  cases operation with
  | setStateLimit limit =>
      cases result
      exact reached.setStateLimit limit
  | alloc =>
      cases result
      exact reached.alloc
  | free id =>
      exact reached.free result
  | release start =>
      obtain ⟨_, isResult⟩ := perform_eq_ok_iff.mp result
      exact reached.release isResult
  | setAccepting id accepting =>
      exact reached.setAccepting result
  | setTransition id atom target =>
      obtain ⟨_, isResult⟩ := perform_eq_ok_iff.mp result
      exact reached.setTransition isResult
  | anyNode =>
      cases result
      exact reached.anyNode
  | emptyNode =>
      cases result
      exact reached.emptyNode
  | determinize start step =>
      obtain ⟨_, isResult⟩ := perform_eq_ok_iff.mp result
      exact reached.determinize isResult
  | merge left right =>
      obtain ⟨_, isResult⟩ := perform_eq_ok_iff.mp result
      exact reached.merge isResult
  | compile graph fragment =>
      obtain ⟨_, isResult⟩ := perform_eq_ok_iff.mp result
      exact reached.compile isResult
  | compileModel model =>
      obtain ⟨_, isResult⟩ := perform_eq_ok_iff.mp result
      exact reached.compileModel isResult

theorem Attained.reached {admits : Store → Operation → Prop}
    (attained : Attained admits store) : store.Reached := by
  induction attained with
  | new =>
      exact Reached.new
  | perform operation _ _ result inductionHypothesis =>
      exact inductionHypothesis.perform result

/-- The operations are all there are. -/
theorem attained_iff_reached :
    Attained (fun _ _ => True) store ↔ store.Reached := by
  refine ⟨Attained.reached, fun reached => ?_⟩
  induction reached with
  | new =>
      exact Attained.new
  | setStateLimit limit _ earlier =>
      exact earlier.perform (.setStateLimit limit) trivial rfl
  | alloc _ earlier =>
      exact earlier.perform .alloc trivial rfl
  | free _ isAfter earlier =>
      exact earlier.perform (.free _) trivial isAfter
  | release _ isAfter earlier =>
      exact earlier.perform (.release _) trivial
        (perform_eq_ok_iff.mpr ⟨_, isAfter⟩)
  | setAccepting _ isAfter earlier =>
      exact earlier.perform (.setAccepting _ _) trivial isAfter
  | setTransition _ isAfter earlier =>
      exact earlier.perform (.setTransition _ _ _) trivial
        (perform_eq_ok_iff.mpr ⟨_, isAfter⟩)
  | anyNode _ earlier =>
      exact earlier.perform .anyNode trivial rfl
  | emptyNode _ earlier =>
      exact earlier.perform .emptyNode trivial rfl
  | determinize _ isAfter earlier =>
      exact earlier.perform (.determinize _ _) trivial
        (perform_eq_ok_iff.mpr ⟨_, isAfter⟩)
  | merge _ isAfter earlier =>
      exact earlier.perform (.merge _ _) trivial
        (perform_eq_ok_iff.mpr ⟨_, isAfter⟩)
  | compile _ isAfter earlier =>
      exact earlier.perform (.compile _ _) trivial
        (perform_eq_ok_iff.mpr ⟨_, isAfter⟩)
  | compileModel _ isAfter earlier =>
      exact earlier.perform (.compileModel _) trivial
        (perform_eq_ok_iff.mpr ⟨_, isAfter⟩)

/-! ## The shared nodes -/

/-- Every shared node accepts and has no steps. -/
def Pristine (store : Store) : Prop :=
  ∀ id, store.isShared id = true →
    ∃ node, store.node id = .ok node ∧ node.accepting = true ∧
      node.transitions = ∅

theorem pristine_iff_standard (sound : store.Sound) :
    store.Pristine ↔ store.Standard := by
  constructor
  · intro pristine
    constructor
    · intro id shared
      obtain ⟨node, found, accepts, noSteps⟩ :=
        pristine id ((isShared_iff store id).mpr (Or.inl shared))
      have isAny := (sound.isAny_iff id node found).mpr shared
      have notEmpty : ¬ node.isEmpty = true :=
        fun isEmpty => sound.notBoth found ⟨isAny, isEmpty⟩
      rw [Bool.not_eq_true] at notEmpty
      obtain ⟨accepting, any, empty, transitions⟩ := node
      cases accepts
      cases noSteps
      cases isAny
      cases notEmpty
      exact found
    · intro id shared
      obtain ⟨node, found, accepts, noSteps⟩ :=
        pristine id ((isShared_iff store id).mpr (Or.inr shared))
      have isEmpty := (sound.isEmpty_iff id node found).mpr shared
      have notAny : ¬ node.isAny = true :=
        fun isAny => sound.notBoth found ⟨isAny, isEmpty⟩
      rw [Bool.not_eq_true] at notAny
      obtain ⟨accepting, any, empty, transitions⟩ := node
      cases accepts
      cases noSteps
      cases isEmpty
      cases notAny
      exact found
  · intro standard id shared
    cases (isShared_iff store id).mp shared with
    | inl isAny =>
        exact ⟨freshAny, standard.any id isAny, rfl, rfl⟩
    | inr isEmpty =>
        exact ⟨freshEmpty, standard.empty id isEmpty, rfl, rfl⟩

/-! ## Single operations -/

theorem keeps_recycle {id : Nat} (live : store.Live id) :
    Keeps (store.recycle id) store := by
  intro other node found
  rw [node_recycle live] at found
  split at found
  · cases found
  · exact found

/-- A change of a node in use is seen at a shared node alone. -/
theorem Pristine.modifyNode_iff (pristine : store.Pristine) {id : Nat}
    {node : Node} (found : store.node id = .ok node)
    (change : Node → Node) :
    (store.modifyNode id change).Pristine ↔
      (store.isShared id = true →
        (change node).accepting = true ∧ (change node).transitions = ∅) := by
  have changed : (store.modifyNode id change).node id = .ok (change node) := by
    rw [node_modifyNode, if_pos rfl, found]
    rfl
  constructor
  · intro after shared
    obtain ⟨other, isOther, holds⟩ := after id shared
    rw [changed] at isOther
    cases isOther
    exact holds
  · intro holds other shared
    by_cases same : other = id
    · subst same
      exact ⟨change node, changed, holds shared⟩
    · rw [node_modifyNode, if_neg same]
      exact pristine other shared

theorem insert_ne_empty (table : Transitions) (atom : Atom) (target : Nat) :
    AtomMap.insert table atom target ≠ ∅ := by
  intro same
  have entered := AtomMap.find?_insert table atom target atom.name
  rw [same, if_pos rfl] at entered
  cases entered

/-- The shared nodes stay as they were made exactly if the operation leaves
them alone. -/
theorem Pristine.perform_iff (pristine : store.Pristine)
    (sound : store.Sound) {operation : Operation}
    (result : operation.perform store = .ok after) :
    after.Pristine ↔ operation.Spares store := by
  have standard := (pristine_iff_standard sound).mp pristine
  have ofGrown : ∀ {created : List Nat}, store.Grown created after →
      (after.Pristine ↔ True) := by
    intro created grown
    have afterStandard := grown.standard sound standard
    exact iff_of_true ((pristine_iff_standard grown.sound).mpr afterStandard)
      trivial
  have ofKeeps : after.Sound → Keeps after store →
      (after.Pristine ↔ True) := by
    intro afterSound keeps
    have afterStandard := keeps.standard sound afterSound standard
    exact iff_of_true ((pristine_iff_standard afterSound).mpr afterStandard)
      trivial
  -- Only the two setters change a node that stays; all other operations make
  -- nodes, which leaves the shared ones standard, or put nodes away.
  cases operation with
  | setStateLimit limit =>
      cases result
      exact iff_of_true pristine trivial
  | alloc =>
      cases result
      exact ofGrown ((grown_start sound).create
        (introduces_blank sound.toPooled) rfl)
  | free id =>
      obtain ⟨live, same⟩ := free_eq_ok_iff.mp result
      subst same
      exact ofKeeps (sound.recycle live) (keeps_recycle live)
  | release start =>
      obtain ⟨count, isResult⟩ := perform_eq_ok_iff.mp result
      exact ofKeeps (release_spec sound isResult).1
        (keeps_of_release sound isResult)
  | setAccepting id accepting =>
      obtain ⟨⟨node, found⟩, same⟩ := eq_of_setAccepting result
      subst same
      refine (pristine.modifyNode_iff found _).trans ?_
      refine forall_congr' fun shared => and_iff_left ?_
      obtain ⟨other, isOther, _, noSteps⟩ := pristine id shared
      rw [found] at isOther
      cases isOther
      exact noSteps
  | setTransition id atom target =>
      obtain ⟨_, isResult⟩ := perform_eq_ok_iff.mp result
      obtain ⟨node, found, _, same⟩ := eq_of_setTransition isResult
      subst same
      refine (pristine.modifyNode_iff found _).trans ?_
      rw [Operation.Spares, ← Bool.not_eq_true]
      refine forall_congr' fun shared => iff_of_false ?_ not_false
      intro holds
      exact insert_ne_empty node.transitions atom target holds.2
  | anyNode =>
      cases result
      exact ofGrown (grown_start sound).anyNode
  | emptyNode =>
      cases result
      exact ofGrown (grown_start sound).emptyNode
  | determinize start step =>
      obtain ⟨_, isResult⟩ := perform_eq_ok_iff.mp result
      obtain ⟨_, grown⟩ := grown_determinize sound isResult
      exact ofGrown grown
  | merge left right =>
      obtain ⟨_, isResult⟩ := perform_eq_ok_iff.mp result
      obtain ⟨_, grown⟩ := grown_merge sound isResult
      exact ofGrown grown
  | compile graph fragment =>
      obtain ⟨_, isResult⟩ := perform_eq_ok_iff.mp result
      obtain ⟨_, grown⟩ := grown_compile sound isResult
      exact ofGrown grown
  | compileModel model =>
      obtain ⟨_, isResult⟩ := perform_eq_ok_iff.mp result
      obtain ⟨_, grown⟩ := grown_compileModel sound isResult
      exact ofGrown grown

/-! ## Whole runs -/

theorem pristine_new : Pristine {} := by
  intro id shared
  cases shared

theorem Attained.stays_pristine (attained : Attained Operation.Spares store) :
    store.Pristine := by
  induction attained with
  | new =>
      exact pristine_new
  | perform operation earlier spares result inductionHypothesis =>
      have sound := earlier.reached.sound
      exact (inductionHypothesis.perform_iff sound result).mpr spares

/-- Operations that enter no step and no refusal at a shared node leave the
shared nodes as they were made. No other operation does any harm to them. -/
theorem Attained.pristine (attained : Attained Operation.Spares store) :
    store.Pristine ∧ ∀ operation after,
      Operation.perform store operation = .ok after →
      (after.Pristine ↔ operation.Spares store) :=
  ⟨attained.stays_pristine, fun _ _ result =>
    attained.stays_pristine.perform_iff attained.reached.sound result⟩

/-- Two steps lead to the shared nodes. -/
def stepsToShared : Store where
  slots :=
    #[⟨1, true, freshAny⟩, ⟨2, true, freshEmpty⟩,
      ⟨3, true,
        { transitions :=
            (AtomMap.insert ∅ (.ofElement "a") 0).insert (.ofElement "b") 1 }⟩]
  sharedAny := some 0
  sharedEmpty := some 1
  issued := 3

theorem attained_stepsToShared :
    Attained Operation.Spares stepsToShared := by
  have shared : Attained Operation.Spares _ :=
    (Attained.new.perform .anyNode trivial rfl).perform .emptyNode trivial rfl
  have made : Attained Operation.Spares _ := shared.perform .alloc trivial rfl
  have toAny : Attained Operation.Spares _ :=
    made.perform (.setTransition 2 (.ofElement "a") 0) rfl rfl
  have toEmpty : Attained Operation.Spares _ :=
    toAny.perform (.setTransition 2 (.ofElement "b") 1) rfl rfl
  exact toEmpty.perform (.setAccepting 0 true) (fun _ => rfl) rfl

theorem Attained.pristine_stepsToShared :
    Attained Operation.Spares stepsToShared ∧ stepsToShared.Pristine ∧
    (∀ operation after,
      Operation.perform stepsToShared operation = .ok after →
      (after.Pristine ↔ operation.Spares stepsToShared)) ∧
    ∃ after,
      Operation.perform stepsToShared (.setAccepting 1 false) = .ok after ∧
      ¬ after.Pristine := by
  obtain ⟨pristine, performed⟩ := attained_stepsToShared.pristine
  refine ⟨attained_stepsToShared, pristine, performed, _, rfl, ?_⟩
  rw [performed (.setAccepting 1 false) _ rfl]
  intro spares
  cases spares rfl

/-- The node that accepts everything refuses the empty word, and the one that
accepts the empty word alone has a step in its table. -/
def spoiltShared : Store where
  slots :=
    #[⟨1, true, { freshAny with accepting := false }⟩,
      ⟨2, true,
        { freshEmpty with
          transitions := AtomMap.insert ∅ (.ofElement "a") 2 }⟩,
      ⟨3, true, { accepting := true }⟩]
  sharedAny := some 0
  sharedEmpty := some 1
  issued := 3

/-- Marks and steps are entered at the shared nodes, too. A union reads the
table of the node that accepts the empty word alone, and then accepts what
neither of its two nodes does. -/
theorem not_pristine_spoiltShared :
    spoiltShared.Reached ∧ ¬ spoiltShared.Pristine ∧
    (∃ node, spoiltShared.node 0 = .ok node ∧ node.isAny = true ∧
      node.accepting = false) ∧
    (∃ node, spoiltShared.node 1 = .ok node ∧ node.isEmpty = true ∧
      node.transitions ≠ ∅) ∧
    spoiltShared.walk 1 ["a"] = .ok ⟨[1], false⟩ ∧
    spoiltShared.walk 2 ["a"] = .ok ⟨[2], false⟩ ∧
    ∃ merged after, spoiltShared.merge 1 2 = .ok (.ok merged, after) ∧
      ∃ walk, after.walk merged ["a"] = .ok walk ∧ walk.accepted = true := by
  have made : Reached _ := .alloc (.emptyNode (.anyNode .new))
  have accepts : Reached _ := .setAccepting made
    (show Store.setAccepting _ 2 true = .ok _ from rfl)
  have refuses : Reached _ := .setAccepting accepts
    (show Store.setAccepting _ 0 false = .ok _ from rfl)
  have reached : spoiltShared.Reached := .setTransition refuses
    (show Store.setTransition _ 1 (.ofElement "a") 2 =
      .ok (none, spoiltShared) from rfl)
  refine ⟨reached, ?_, ⟨_, rfl, rfl, rfl⟩, ⟨_, rfl, rfl, ?_⟩, rfl, rfl,
    _, _, rfl, _, rfl, rfl⟩
  · intro pristine
    obtain ⟨node, found, accepting, _⟩ := pristine 0 rfl
    cases found
    cases accepting
  · exact insert_ne_empty ∅ (.ofElement "a") 2

end Store

end ContentModel.Automaton
