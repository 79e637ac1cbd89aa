import ContentModel.Proofs.Automaton.Growth
import ContentModel.Proofs.Automaton.KeyGraph

/-!
# What the subset construction builds

Whatever its step function is, a construction only adds nodes. If the steps are
given by the keys alone, as long as the nodes that were there stay, it makes
one node for each key that is met and needs one of its own, and each node leads
to the nodes of its successor keys (`Built`). It gives up exactly if there are
more of these keys than the store allows.
-/

namespace ContentModel.Automaton

universe u

variable {κ : Type u} [Ord κ]

namespace Construction

/-- The nodes made so far. -/
def created (construction : Construction κ) : List Nat :=
  construction.states.toList.map Prod.fst

/-! ## Meeting a key -/

section Finds

variable {step : Store → κ → Except Fault (SubsetStep κ)} {key : κ}
  {before after : Construction κ} {id : Nat}

/-- What meeting a key can do to a construction. -/
inductive Finds (step : Store → κ → Except Fault (SubsetStep κ)) (key : κ)
    (before : Construction κ) : Nat → Construction κ → Prop
  | known {id : Nat} :
      before.known[key]? = some id →
      Finds step key before id before
  | any :
      before.known[key]? = none →
      step before.store key = .ok .any →
      Finds step key before before.store.anyNode.1
        ⟨before.store.anyNode.2,
          before.known.insert key before.store.anyNode.1, before.states⟩
  | empty :
      before.known[key]? = none →
      step before.store key = .ok .empty →
      Finds step key before before.store.emptyNode.1
        ⟨before.store.emptyNode.2,
          before.known.insert key before.store.emptyNode.1, before.states⟩
  | expand {accepting : Bool} {edges : List (Atom × κ)} :
      before.known[key]? = none →
      step before.store key = .ok (.expand accepting edges) →
      Finds step key before before.store.alloc.1
        ⟨before.store.alloc.2.modifyNode before.store.alloc.1 fun node =>
            { node with accepting },
          before.known.insert key before.store.alloc.1,
          before.states.push (before.store.alloc.1, edges)⟩

theorem exists_finds {found : SubsetStep κ}
    (answer : step before.store key = .ok found) :
    ∃ id after, before.stateOf step key = .ok (id, after) ∧
      Finds step key before id after := by
  rw [stateOf]
  cases isKnown : before.known[key]? with
  | some id =>
      exact ⟨id, before, rfl, Finds.known isKnown⟩
  | none =>
      cases found with
      | any =>
          exact ⟨_, _, by rw [answer], Finds.any isKnown answer⟩
      | empty =>
          exact ⟨_, _, by rw [answer], Finds.empty isKnown answer⟩
      | expand accepting edges =>
          exact ⟨_, _, by rw [answer], Finds.expand isKnown answer⟩

theorem finds_of_stateOf
    (result : before.stateOf step key = .ok (id, after)) :
    Finds step key before id after := by
  cases answer : step before.store key with
  | ok found =>
      obtain ⟨_, _, isFound, finds⟩ := exists_finds answer
      rw [isFound] at result
      cases result
      exact finds
  | error fault =>
      rw [stateOf] at result
      cases isKnown : before.known[key]? with
      | some known =>
          rw [isKnown] at result
          cases result
          exact Finds.known isKnown
      | none =>
          rw [isKnown, answer] at result
          cases result

end Finds

/-! ## Growth -/

section Grown

open Store (Grown)

variable {base : Store} {step : Store → κ → Except Fault (SubsetStep κ)}
  {before after : Construction κ}

omit [Ord κ] in
theorem map_fst_push (states : Array (Nat × List (Atom × κ))) (id : Nat)
    (edges : List (Atom × κ)) :
    (states.push (id, edges)).toList.map Prod.fst =
      states.toList.map Prod.fst ++ [id] := by
  rw [Array.toList_push, List.map_append]
  rfl

theorem Finds.grown {key : κ} {id : Nat}
    (finds : Finds step key before id after)
    (grown : Grown base before.created before.store) :
    Grown base after.created after.store := by
  cases finds with
  | known _ =>
      exact grown
  | any _ _ =>
      exact grown.anyNode
  | empty _ _ =>
      exact grown.emptyNode
  | @expand accepting _ _ _ =>
      rw [created, map_fst_push]
      exact grown.create
        (Store.introduces_alloc grown.sound.toPooled
          (fun node => { node with accepting }) rfl) rfl

/-- The construction after one more edge was entered. -/
def enter (construction : Construction κ) (source : Nat) (atom : Atom)
    (target : Nat) : Construction κ :=
  { construction with
    store := construction.store.modifyNode source fun node =>
      { node with transitions := node.transitions.insert atom target } }

theorem connect_cons {source target : Nat} {atom : Atom} {key : κ}
    {edges : List (Atom × κ)} {found : Construction κ}
    (isFound : before.stateOf step key = .ok (target, found)) :
    before.connect step source ((atom, key) :: edges) =
      (found.enter source atom target).connect step source edges := by
  rw [connect, isFound]
  rfl

theorem mem_created_of_state {position source : Nat}
    {edges : List (Atom × κ)}
    (found : before.states[position]? = some (source, edges)) :
    source ∈ before.created := by
  obtain ⟨within, same⟩ := Array.getElem?_eq_some_iff.mp found
  refine List.mem_map.mpr ⟨(source, edges), ?_, rfl⟩
  rw [← same]
  exact Array.getElem_mem_toList within

/-- An edge that the node `source` is to get, or got. -/
def Waits (construction : Construction κ) (source : Nat) (edge : Atom × κ) :
    Prop :=
  ∃ edges, (source, edges) ∈ construction.states ∧ edge ∈ edges

theorem Waits.mem_created {source : Nat} {edge : Atom × κ}
    (waits : before.Waits source edge) : source ∈ before.created := by
  obtain ⟨edges, isState, _⟩ := waits
  exact List.mem_map.mpr ⟨_, isState.val, rfl⟩

theorem waits_of_state {position source : Nat} {edges : List (Atom × κ)}
    (found : before.states[position]? = some (source, edges)) :
    ∀ edge ∈ edges, before.Waits source edge :=
  fun _ member => ⟨edges, Array.mem_of_getElem? found, member⟩

theorem Finds.waits {key : κ} {id source : Nat} {edge : Atom × κ}
    (finds : Finds step key before id after)
    (waits : before.Waits source edge) : after.Waits source edge := by
  obtain ⟨edges, isState, member⟩ := waits
  refine ⟨edges, ?_, member⟩
  cases finds with
  | known _ =>
      exact isState
  | any _ _ =>
      exact isState
  | empty _ _ =>
      exact isState
  | expand _ _ =>
      exact Array.mem_push_of_mem _ isState

/-- The edges that a found node is to get are those of its key. -/
theorem Finds.waits_or {key : κ} {id source : Nat} {edge : Atom × κ}
    (finds : Finds step key before id after)
    (waits : after.Waits source edge) :
    before.Waits source edge ∨ ∃ accepting edges,
      step before.store key = .ok (.expand accepting edges) ∧
        edge ∈ edges := by
  cases finds with
  | known _ =>
      exact Or.inl waits
  | any _ _ =>
      exact Or.inl waits
  | empty _ _ =>
      exact Or.inl waits
  | expand _ isExpand =>
      obtain ⟨edges, isState, member⟩ := waits
      rcases Array.mem_push.mp isState with earlier | isLast
      · exact Or.inl ⟨edges, earlier, member⟩
      · cases isLast
        exact Or.inr ⟨_, _, isExpand, member⟩

/-! ### What completing one node passes on -/

/-- What the completion of a node passes on from its position to the next one
holds at the end. The induction is on the room, as in the definition. -/
theorem complete_invariant {motive : Nat → Construction κ → Prop}
    (passedOn : ∀ {position source : Nat} {edges : List (Atom × κ)}
      {before next : Construction κ}, motive position before →
      before.states[position]? = some (source, edges) →
      before.connect step source edges = .ok next →
      motive (position + 1) next)
    {room position : Nat} {answer : Bool} (initial : motive position before)
    (result : before.complete step room position = .ok (answer, after)) :
    ∃ position, motive position after := by
  induction room generalizing before position with
  | zero =>
      unfold complete at result
      cases found : before.states[position]? with
      | none =>
          rw [found] at result
          cases result
          exact ⟨position, initial⟩
      | some state =>
          obtain ⟨source, edges⟩ := state
          rw [found] at result
          cases connected : before.connect step source edges with
          | error fault =>
              simp only [connected] at result
              cases result
          | ok next =>
              simp only [connected] at result
              cases result
              exact ⟨position + 1, passedOn initial found connected⟩
  | succ room inductionHypothesis =>
      unfold complete at result
      cases found : before.states[position]? with
      | none =>
          rw [found] at result
          cases result
          exact ⟨position, initial⟩
      | some state =>
          obtain ⟨source, edges⟩ := state
          rw [found] at result
          cases connected : before.connect step source edges with
          | error fault =>
              simp only [connected] at result
              cases result
          | ok next =>
              have further := passedOn initial found connected
              simp only [connected] at result
              split at result
              · exact inductionHypothesis further result
              · cases result
                exact ⟨position + 1, further⟩

/-! ### What entering one edge keeps -/

/-- The key of an edge of a node that was made is met, and the edge to its node
is entered: what this keeps is kept by the whole construction. -/
def KeptByEdges (step : Store → κ → Except Fault (SubsetStep κ))
    (motive : Construction κ → Prop) : Prop :=
  ∀ (before found : Construction κ) (key : κ) (source target : Nat)
    (atom : Atom),
    motive before → before.Waits source (atom, key) →
    Finds step key before target found →
    motive (found.enter source atom target)

section Kept

variable {motive : Construction κ → Prop}
  (kept : KeptByEdges step motive)

include kept

theorem KeptByEdges.connect {source : Nat} {edges : List (Atom × κ)}
    (initial : motive before)
    (waits : ∀ edge ∈ edges, before.Waits source edge)
    (result : before.connect step source edges = .ok after) :
    motive after := by
  induction edges generalizing before with
  | nil =>
      cases result
      exact initial
  | cons edge edges inductionHypothesis =>
      obtain ⟨atom, key⟩ := edge
      cases isFound : before.stateOf step key with
      | error fault =>
          rw [Construction.connect, isFound] at result
          cases result
      | ok found =>
          have finds := finds_of_stateOf isFound
          rw [connect_cons isFound] at result
          apply inductionHypothesis _ _ result
          · exact kept _ _ key _ _ atom initial
              (waits _ List.mem_cons_self) finds
          · intro edge member
            exact finds.waits (waits edge (List.mem_cons_of_mem _ member))

end Kept

theorem grown_enter {source target : Nat} {atom : Atom}
    (grown : Grown base before.created before.store)
    (member : source ∈ before.created) :
    Grown base (before.enter source atom target).created
      (before.enter source atom target).store :=
  grown.modifyNode member
    (fun node =>
      { node with transitions := node.transitions.insert atom target })
    fun _ => ⟨rfl, rfl⟩

theorem keptByEdges_grown (base : Store)
    (step : Store → κ → Except Fault (SubsetStep κ)) :
    KeptByEdges step fun construction =>
      Grown base construction.created construction.store := by
  intro before found key source target atom grown waits finds
  exact grown_enter (finds.grown grown) (finds.waits waits).mem_created

theorem grown_abandon
    (grown : Grown base before.created before.store) :
    Grown base [] before.abandon := by
  have taken := grown.recycleAll
  rw [created, List.foldl_map] at taken
  rw [abandon, ← Array.foldl_toList]
  exact taken

end Grown

end Construction

/-- What holds once the start is met and is passed on from node to node holds of
the construction at the end, the nodes of which stay or are given back. -/
theorem Store.exists_position_of_determinize {base after : Store} {start : κ}
    {step : Store → κ → Except Fault (SubsetStep κ)}
    {result : Except StateLimitExceeded Nat}
    {motive : Nat → Nat → Construction κ → Prop}
    (initial : ∀ root found,
      Construction.Finds step start ⟨base, ∅, #[]⟩ root found →
      motive root 0 found)
    (passedOn : ∀ {root position source : Nat} {edges : List (Atom × κ)}
      {before next : Construction κ}, motive root position before →
      before.states[position]? = some (source, edges) →
      before.connect step source edges = .ok next →
      motive root (position + 1) next)
    (isResult : base.determinize start step = .ok (result, after)) :
    ∃ root position construction, motive root position construction ∧
      ((result = .ok root ∧ after = construction.store) ∨
        (result = .error ⟨base.stateLimit⟩ ∧
          after = construction.abandon)) := by
  rw [determinize] at isResult
  cases isRoot : Construction.stateOf step start ⟨base, ∅, #[]⟩ with
  | error fault =>
      rw [isRoot] at isResult
      cases isResult
  | ok found =>
      obtain ⟨root, construction⟩ := found
      have begun := initial root construction
        (Construction.finds_of_stateOf isRoot)
      rw [isRoot] at isResult
      simp only at isResult
      cases isCompleted :
          construction.complete step base.stateLimit 0 with
      | error fault =>
          rw [isCompleted] at isResult
          cases isResult
      | ok completed =>
          obtain ⟨answer, completed⟩ := completed
          obtain ⟨position, further⟩ := Construction.complete_invariant
            (motive := motive root) passedOn begun isCompleted
          rw [isCompleted] at isResult
          cases answer with
          | true =>
              cases isResult
              exact ⟨root, position, completed, further, Or.inl ⟨rfl, rfl⟩⟩
          | false =>
              cases isResult
              exact ⟨root, position, completed, further, Or.inr ⟨rfl, rfl⟩⟩

/-- The same for what is kept by entering edges. -/
theorem Store.exists_of_determinize {base after : Store} {start : κ}
    {step : Store → κ → Except Fault (SubsetStep κ)}
    {result : Except StateLimitExceeded Nat}
    {motive : Construction κ → Prop}
    (initial : ∀ id found,
      Construction.Finds step start ⟨base, ∅, #[]⟩ id found → motive found)
    (kept : Construction.KeptByEdges step motive)
    (isResult : base.determinize start step = .ok (result, after)) :
    ∃ construction, motive construction ∧
      (((∃ root, result = .ok root) ∧ after = construction.store) ∨
        (result = .error ⟨base.stateLimit⟩ ∧
          after = construction.abandon)) := by
  obtain ⟨root, _, construction, holds, isAfter⟩ :=
    exists_position_of_determinize (motive := fun _ _ => motive) initial
      (fun holds isState connected =>
        kept.connect holds (Construction.waits_of_state isState) connected)
      isResult
  refine ⟨construction, holds, isAfter.imp_left ?_⟩
  intro stays
  exact ⟨⟨root, stays.1⟩, stays.2⟩

/-- Whatever the steps are, the nodes in use stay as they are, and a
construction that gives up leaves no node of its own. -/
theorem Store.grown_of_determinize {base after : Store} (sound : base.Sound)
    {start : κ} {step : Store → κ → Except Fault (SubsetStep κ)}
    {result : Except StateLimitExceeded Nat}
    (isResult : base.determinize start step = .ok (result, after)) :
    ((∃ root, result = .ok root) ∧ ∃ created, base.Grown created after) ∨
      (result = .error ⟨base.stateLimit⟩ ∧ base.Grown [] after) := by
  have initial : Grown base [] base := grown_start sound
  obtain ⟨construction, grown, isAfter⟩ := exists_of_determinize
    (fun _ _ finds => finds.grown initial)
    (Construction.keptByEdges_grown base step) isResult
  cases isAfter with
  | inl stays =>
      obtain ⟨isRoot, same⟩ := stays
      exact Or.inl ⟨isRoot, _, same ▸ grown⟩
  | inr givenBack =>
      obtain ⟨isFailure, same⟩ := givenBack
      exact Or.inr ⟨isFailure, same ▸ Construction.grown_abandon grown⟩

theorem Store.grown_determinize {base after : Store} (sound : base.Sound)
    {start : κ} {step : Store → κ → Except Fault (SubsetStep κ)}
    {result : Except StateLimitExceeded Nat}
    (isResult : base.determinize start step = .ok (result, after)) :
    ∃ created, base.Grown created after := by
  cases grown_of_determinize sound isResult with
  | inl succeeds =>
      exact succeeds.2
  | inr givesUp =>
      exact ⟨[], givesUp.2⟩

end ContentModel.Automaton
