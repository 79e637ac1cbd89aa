import ContentModel.Proofs.Automaton.States
import ContentModel.Proofs.Automaton.Slots
import ContentModel.Proofs.Automaton.KeyLanguage
import ContentModel.Proofs.Automaton.Listing

/-!
# Compilations do not depend on what was done before

A store may have nodes that were freed and used again, or constructions that
gave up. Main statement: `compileModel_history`, in two stores that allow as
many states a model is compiled alike, though its nodes have other numbers.
-/

namespace ContentModel.Automaton

universe u

variable {κ : Type u}

/-! ## The drawing of a construction -/

/-- What a listing shows of the node of the key that has this step. -/
def SubsetStep.outline : SubsetStep κ → Outline κ
  | .any => ⟨true, .any, ∅⟩
  | .empty => ⟨true, .empty, ∅⟩
  | .expand accepting edges => ⟨accepting, .ordinary, tableOf edges⟩

theorem Met.of_outline {spec : κ → SubsetStep κ} {start key next : κ}
    {name : String} (met : Met spec start key)
    (leads : (spec key).outline.table.find? name = some next) :
    Met spec start next := by
  have advances : (spec key).advance key name = some next := by
    cases isStep : spec key with
    | any =>
        rw [isStep] at leads
        cases leads
    | empty =>
        rw [isStep] at leads
        cases leads
    | expand accepting edges =>
        rw [isStep] at leads
        exact (find?_tableOf edges name).symm.trans leads
  exact met.advance advances

/-- Where every key has a node of its own, the nodes draw the keys. -/
theorem Built.draws {base after : Store} {spec : κ → SubsetStep κ} {start : κ}
    {keys : List κ} {nodeOf : κ → Nat}
    (built : Built base spec start keys nodeOf after)
    (allExpand : ∀ key, Met spec start key → (spec key).IsExpand) :
    after.reader.Draws (fun key => (spec key).outline)
      { key | Met spec start key } nodeOf where
  injective := by
    apply built.injOn.mono
    intro key met
    exact ⟨met, allExpand key met⟩
  closed key met name next leads := Met.of_outline met leads
  node key met := by
    obtain ⟨accepting, edges, isStep⟩ := allExpand key met
    obtain ⟨node, found, isAccepting, isOrdinary, table⟩ :=
      built.expand key accepting edges met isStep
    refine ⟨node, found, ?_⟩
    rw [isStep]
    refine ⟨isAccepting, isOrdinary, ?_⟩
    intro name
    rw [table, SubsetStep.outline, find?_tableOf]
  lt_size key met := by
    obtain ⟨node, found, _⟩ := built.node met
    exact Store.Live.lt_size ⟨node, found⟩

/-- Two constructions on the same keys make as many nodes. -/
theorem Built.length_eq {left leftAfter right rightAfter : Store}
    {spec : κ → SubsetStep κ} {start : κ} {leftKeys rightKeys : List κ}
    {leftOf rightOf : κ → Nat}
    (leftBuilt : Built left spec start leftKeys leftOf leftAfter)
    (rightBuilt : Built right spec start rightKeys rightOf rightAfter) :
    leftKeys.length = rightKeys.length := by
  have sameKeys : leftKeys.Perm rightKeys := by
    rw [List.perm_ext_iff_of_nodup leftBuilt.keysNodup rightBuilt.keysNodup]
    intro key
    rw [leftBuilt.mem_keys_iff, rightBuilt.mem_keys_iff]
  exact sameKeys.length_eq

/-! ## Counting the nodes of a construction -/

namespace Store

variable [Ord κ] {base after : Store}

theorem isShared_of_recycle {store : Store} {id other : Nat}
    (shared : (store.recycle id).isShared other = true) :
    store.isShared other = true := by
  rw [isShared_iff] at shared ⊢
  refine shared.imp ?_ ?_
  · intro isAny
    exact (ite_none_eq_some_iff.mp isAny).2
  · intro isEmpty
    exact (ite_none_eq_some_iff.mp isEmpty).2

theorem isShared_of_abandon {construction : Construction κ} {id : Nat}
    (shared : construction.abandon.isShared id = true) :
    construction.store.isShared id = true := by
  rw [Construction.abandon, ← Array.foldl_toList] at shared
  revert shared
  refine List.foldlRecOn
    (motive := fun store : Store =>
      store.isShared id = true → construction.store.isShared id = true)
    construction.states.toList _ (fun shared => shared) ?_
  intro store inductionHypothesis state _ shared
  exact inductionHypothesis (isShared_of_recycle shared)

/-- A construction of nodes of their own shares no further node. -/
theorem isShared_of_determinize {start : κ}
    {step : Store → κ → Except Fault (SubsetStep κ)}
    (expands : ∀ store key answer, step store key = .ok answer →
      answer.IsExpand)
    {result : Except StateLimitExceeded Nat}
    (isResult : base.determinize start step = .ok (result, after)) {id : Nat}
    (shared : after.isShared id = true) : base.isShared id = true := by
  have finds : ∀ (before found : Construction κ) (key : κ) (target : Nat),
      Construction.Finds step key before target found →
      found.store.isShared id = true → before.store.isShared id = true := by
    intro before found key target isFound foundShared
    cases isFound with
    | known _ =>
        exact foundShared
    | any _ answer =>
        obtain ⟨_, _, impossible⟩ := expands _ _ _ answer
        cases impossible
    | empty _ answer =>
        obtain ⟨_, _, impossible⟩ := expands _ _ _ answer
        cases impossible
    | expand _ _ =>
        rw [isShared_iff] at foundShared ⊢
        rwa [← sharedAny_alloc, ← sharedEmpty_alloc]
  have kept : Construction.KeptByEdges step fun construction =>
      construction.store.isShared id = true → base.isShared id = true := by
    intro before found key source target atom holds _ isFound foundShared
    exact holds (finds before found key target isFound foundShared)
  obtain ⟨construction, holds, isAfter⟩ :=
    exists_of_determinize
      (fun root found isFound =>
        finds ⟨base, ∅, #[]⟩ found start root isFound)
      kept isResult
  cases isAfter with
  | inl stays =>
      rw [stays.2] at shared
      exact holds shared
  | inr givenBack =>
      rw [givenBack.2] at shared
      exact holds (isShared_of_abandon shared)

/-- Where no further node is shared, the nodes in use are those there were and
those that were made. -/
theorem Grown.live_iff {created : List Nat} (sound : base.Sound)
    (grown : base.Grown created after)
    (sharedBefore : ∀ id, after.isShared id = true →
      base.isShared id = true) (id : Nat) :
    after.Live id ↔ base.Live id ∨ id ∈ created := by
  constructor
  · intro live
    rcases grown.live id live with wasLive | isCreated | isShared
    · exact Or.inl wasLive
    · exact Or.inr isCreated
    · exact Or.inl (sound.shared_live (sharedBefore id isShared))
  · intro either
    cases either with
    | inl wasLive =>
        exact grown.keeps.live wasLive
    | inr isCreated =>
        obtain ⟨node, found, _⟩ := grown.ordinary id isCreated
        exact ⟨node, found⟩

theorem Grown.liveCount_eq {created : List Nat} (sound : base.Sound)
    (grown : base.Grown created after)
    (sharedBefore : ∀ id, after.isShared id = true →
      base.isShared id = true) :
    after.liveCount = base.liveCount + created.length := by
  have split : {id | after.Live id} =
      {id | base.Live id} ∪ {id | id ∈ created} :=
    Set.ext (grown.live_iff sound sharedBefore)
  have finite : {id | base.Live id}.Finite :=
    (Set.finite_lt_nat base.slots.size).subset fun _ live => live.lt_size
  have apart : Disjoint {id | base.Live id} {id | id ∈ created} := by
    apply Set.disjoint_left.mpr
    intro id wasLive isCreated
    exact grown.isNew id isCreated wasLive
  rw [grown.sound.toPooled.liveCount_eq, sound.toPooled.liveCount_eq, split,
    Set.ncard_union_eq apart finite (List.finite_toSet created),
    ← List.coe_toFinset, Set.ncard_coe_finset,
    List.toFinset_card_of_nodup grown.nodup]

/-! ## Two stores -/

section Two

variable {left right : Store} {model : Model}

theorem isExpand_of_setStep {graph : FragmentGraph} {exit : Nat}
    {set : List Nat} {answer : SubsetStep (List Nat)}
    (isStep : graph.setStep exit set = .ok answer) : answer.IsExpand := by
  rw [FragmentGraph.setStep, bind_eq_ok_iff] at isStep
  obtain ⟨table, _, isStep⟩ := isStep
  rw [bind_eq_ok_iff] at isStep
  obtain ⟨edges, _, same⟩ := isStep
  cases same
  exact ⟨_, edges, rfl⟩

/-- The compilation of a model shares no further node. -/
theorem isShared_of_compileModel {result : Except StateLimitExceeded Nat}
    (isResult : base.compileModel model = .ok (result, after)) {id : Nat}
    (shared : after.isShared id = true) : base.isShared id = true := by
  rw [compileModel_eq, bind_eq_ok_iff] at isResult
  obtain ⟨⟨fragment, graph⟩, _, isResult⟩ := isResult
  change base.compile graph fragment = .ok (result, after) at isResult
  rw [compile, bind_eq_ok_iff] at isResult
  obtain ⟨start, _, isResult⟩ := isResult
  apply isShared_of_determinize _ isResult shared
  intro store set answer isStep
  exact isExpand_of_setStep isStep

theorem live_compileModel_iff {created : List Nat}
    {result : Except StateLimitExceeded Nat} (sound : base.Sound)
    (isResult : base.compileModel model = .ok (result, after))
    (grown : base.Grown created after) (id : Nat) :
    after.Live id ↔ base.Live id ∨ id ∈ created :=
  grown.live_iff sound (fun _ => isShared_of_compileModel isResult) id

theorem liveCount_compileModel {created : List Nat}
    {result : Except StateLimitExceeded Nat} (sound : base.Sound)
    (isResult : base.compileModel model = .ok (result, after))
    (grown : base.Grown created after) :
    after.liveCount = base.liveCount + created.length :=
  grown.liveCount_eq sound fun _ => isShared_of_compileModel isResult

/-- Whatever was done with two stores that allow as many states, a model is
compiled in both alike: it has too many states in both, or the automata have the
same listing and as many nodes more are in use in both. -/
theorem compileModel_history (leftReached : left.Reached)
    (rightReached : right.Reached)
    (sameLimit : left.stateLimit = right.stateLimit)
    (ordered : model.BoundsOrdered) :
    (∃ leftAfter rightAfter,
      left.compileModel model =
        .ok (.error ⟨left.stateLimit⟩, leftAfter) ∧
      right.compileModel model =
        .ok (.error ⟨left.stateLimit⟩, rightAfter)) ∨
    (∃ leftStart leftAfter rightStart rightAfter text count,
      left.compileModel model = .ok (.ok leftStart, leftAfter) ∧
      right.compileModel model = .ok (.ok rightStart, rightAfter) ∧
      leftAfter.listing leftStart = .ok text ∧
      rightAfter.listing rightStart = .ok text ∧
      leftAfter.liveCount = left.liveCount + count ∧
      rightAfter.liveCount = right.liveCount + count) := by
  have leftOutcome := compileModel_states leftReached.sound ordered
  have rightOutcome := compileModel_states rightReached.sound ordered
  rw [← sameLimit] at rightOutcome
  cases leftOutcome with
  | inl leftSucceeds =>
      obtain ⟨leftStates, leftOf, leftAfter, isLeft, fits, leftBuilt⟩ :=
        leftSucceeds
      cases rightOutcome with
      | inl rightSucceeds =>
          obtain ⟨rightStates, rightOf, rightAfter, isRight, _,
            rightBuilt⟩ := rightSucceeds
          have allExpand : ∀ set, Met model.stateStep model.firstState set →
              (model.stateStep set).IsExpand :=
            fun _ met => isExpand_of_mem_states ordered met
          have isMet := met_start model.stateStep model.firstState
          obtain ⟨text, leftText, rightText⟩ :=
            Reader.exists_listing_mirrored (leftBuilt.draws allExpand)
              (rightBuilt.draws allExpand) isMet
          have leftCount :=
            liveCount_compileModel leftReached.sound isLeft leftBuilt.grown
          have rightCount :=
            liveCount_compileModel rightReached.sound isRight
              rightBuilt.grown
          rw [List.length_map] at leftCount rightCount
          rw [← leftBuilt.length_eq rightBuilt] at rightCount
          exact Or.inr ⟨_, leftAfter, _, rightAfter, text, leftStates.length,
            isLeft, isRight, leftText, rightText, leftCount, rightCount⟩
      | inr rightGivesUp =>
          obtain ⟨_, _, exceeds, _⟩ := rightGivesUp
          exact absurd exceeds fits
  | inr leftGivesUp =>
      obtain ⟨leftAfter, isLeft, exceeds, _⟩ := leftGivesUp
      cases rightOutcome with
      | inl rightSucceeds =>
          obtain ⟨_, _, _, _, fits, _⟩ := rightSucceeds
          exact absurd exceeds fits
      | inr rightGivesUp =>
          obtain ⟨rightAfter, isRight, _⟩ := rightGivesUp
          exact Or.inl ⟨leftAfter, rightAfter, isLeft, isRight⟩

/-- A blank node is in use. The slot before it was freed; its node accepted and
had a step. -/
def oneFreed : Store where
  slots := #[⟨1, false, { accepting := true }⟩, ⟨2, true, {}⟩]
  pool := [0]
  issued := 2

theorem reached_oneFreed : oneFreed.Reached := by
  have made : Reached _ := .alloc (.alloc .new)
  have stepped : Reached _ := .setTransition made
    (show Store.setTransition _ 0 (.ofElement "a") 0 = .ok (_, _) from rfl)
  have accepted : Reached _ := .setAccepting stepped
    (show Store.setAccepting _ 0 true = .ok _ from rfl)
  exact .free accepted (show Store.free _ 0 = .ok oneFreed from rfl)

/-- In a new store the nodes that are made have other numbers than in the one
that was used before, and the listing is the same. -/
theorem compileModel_history_freed :
    ∃ (model : Model) (leftAfter rightAfter : Store) (count : Nat),
      oneFreed.Reached ∧ model.BoundsOrdered ∧
      compileModel {} model = .ok (.ok 0, leftAfter) ∧
      oneFreed.compileModel model = .ok (.ok 0, rightAfter) ∧
      leftAfter.reader.reachable 0 = .ok [0, 1, 2] ∧
      rightAfter.reader.reachable 0 = .ok [0, 2, 3] ∧
      leftAfter.listing 0 = .ok "D0: a → D1\nD1: b → D2\nD2 ✓: ∅\n" ∧
      rightAfter.listing 0 = leftAfter.listing 0 ∧
      leftAfter.liveCount = count ∧
      rightAfter.liveCount = oneFreed.liveCount + count := by
  have ordered : (Model.sequence [.leaf (.ofElement "a"),
      .leaf (.ofElement "b")]).BoundsOrdered := by
    decide
  have isLeft : compileModel {} (.sequence [.leaf (.ofElement "a"),
      .leaf (.ofElement "b")]) = .ok (.ok 0, _) := rfl
  have isRight : oneFreed.compileModel (.sequence [.leaf (.ofElement "a"),
      .leaf (.ofElement "b")]) = .ok (.ok 0, _) := rfl
  cases compileModel_history .new reached_oneFreed rfl ordered with
  | inl refused =>
      obtain ⟨_, _, isRefused, _⟩ := refused
      cases isLeft.symm.trans isRefused
  | inr compiled =>
      obtain ⟨_, _, _, _, text, count, leftCompiled, rightCompiled, leftText,
        rightText, leftCount, rightCount⟩ := compiled
      cases isLeft.symm.trans leftCompiled
      cases isRight.symm.trans rightCompiled
      exact ⟨_, _, _, count, reached_oneFreed, ordered, isLeft, isRight, rfl,
        rfl, rfl, rightText.trans leftText.symm,
        leftCount.trans (Nat.zero_add count), rightCount⟩

end Two

end Store

end ContentModel.Automaton
