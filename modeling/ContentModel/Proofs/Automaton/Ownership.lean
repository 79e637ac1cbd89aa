import ContentModel.Proofs.Automaton.States
import ContentModel.Proofs.Automaton.Confined
import ContentModel.Proofs.Automaton.Slots
import ContentModel.Proofs.Automaton.Union

/-!
# What an automaton owns

An automaton owns the nodes to which steps lead from its start, but for the two
shared nodes. It depends on these and on the shared nodes alone, a release
frees exactly these, and a construction makes exactly these: each node that it
makes is reached from the node that it returns.
-/

namespace ContentModel.Automaton

universe u

namespace Store

variable {store before after : Store} {start : Nat}

/-! ## Steps -/

/-- A step of the table of the node leads to `next`. -/
def Step (store : Store) (id next : Nat) : Prop :=
  ∃ node, store.node id = .ok node ∧ next ∈ node.targets

/-- Steps lead from one node to the other. -/
def Reaches (store : Store) : Nat → Nat → Prop :=
  Relation.ReflTransGen store.Step

/-- The nodes that are reached, but for the shared ones. -/
def ownNodes (store : Store) (start : Nat) : Set Nat :=
  {id | store.Reaches start id ∧ store.isShared id = false}

/-- Every node that is reached is in use. -/
def Intact (store : Store) (start : Nat) : Prop :=
  ∀ id, store.Reaches start id → store.Live id

theorem reaches_start (store : Store) (start : Nat) :
    store.Reaches start start :=
  Relation.ReflTransGen.refl

theorem Reaches.next {id next : Nat} (reaches : store.Reaches start id)
    (step : store.Step id next) : store.Reaches start next :=
  reaches.tail step

/-- An automaton that owns no node of another one does not get into it. -/
theorem not_own_of_reaches {other id : Nat}
    (apart : Disjoint (store.ownNodes start) (store.ownNodes other))
    (reaches : store.Reaches start id) : id ∉ store.ownNodes other :=
  fun own => Set.disjoint_left.mp apart ⟨reaches, own.2⟩ own

/-- A walk does not leave what is reached. -/
theorem Intact.closed (intact : store.Intact start) :
    store.reader.Closed {id | store.Reaches start id} := by
  intro id reaches
  obtain ⟨node, found⟩ := intact id reaches
  refine ⟨node, found, ?_⟩
  intro name next advance
  cases isRole : node.role with
  | ordinary =>
      rw [Node.advance_eq, isRole] at advance
      have isTarget : next ∈ node.targets :=
        (node.transitions.mem_values_iff next).mpr ⟨name, advance⟩
      exact Reaches.next reaches ⟨node, found, isTarget⟩
  | any =>
      rw [Node.advance_eq, isRole] at advance
      cases advance
      exact reaches
  | empty =>
      rw [Node.advance_eq, isRole] at advance
      cases advance

theorem Intact.safe (intact : store.Intact start) :
    store.reader.Safe start :=
  intact.closed.safe (store.reaches_start start)

/-- No walk fails, so what is accepted is the language of the node. -/
theorem Intact.accepts_language (intact : store.Intact start) :
    store.Accepts start (store.reader.language start) := by
  intro word
  obtain ⟨walk, isWalk⟩ := intact.safe word
  exact ⟨walk, isWalk, (Reader.mem_language_iff_of_walk isWalk).symm⟩

/-- Where no slot waits in the pool, all that is reached is in use. -/
theorem Reached.intact (reached : store.Reached) (noneFree : store.pool = [])
    (within : start < store.slots.size) : store.Intact start := by
  have allLive : ∀ id, id < store.slots.size → store.Live id := by
    intro id within
    by_contra isFree
    have pooled := (reached.sound.mem_pool_iff id).mpr ⟨within, isFree⟩
    rw [noneFree] at pooled
    exact absurd pooled List.not_mem_nil
  intro id reaches
  induction reaches with
  | refl =>
      exact allLive start within
  | tail _ step _ =>
      obtain ⟨node, found, isTarget⟩ := step
      obtain ⟨slot, present, _, rfl⟩ := (node_eq_ok_iff ..).mp found
      exact allLive _ (reached.slotted.target_lt _ slot present _ isTarget)

/-! ### Shared nodes -/

/-- A node that stays is shared if it was. -/
theorem Sound.isShared_congr (sound : before.Sound)
    (afterSound : after.Sound) {id : Nat} {node : Node}
    (found : before.node id = .ok node) (stays : after.node id = .ok node) :
    after.isShared id = before.isShared id := by
  rw [Bool.eq_iff_iff, sound.isShared_iff found, afterSound.isShared_iff stays]

/-- Stores that have every node in common that one of them shares have the same
shared nodes. -/
theorem Sound.sharedNodes_eq (sound : before.Sound) (afterSound : after.Sound)
    (common : ∀ id, before.isShared id = true ∨ after.isShared id = true →
      ∃ node, before.node id = .ok node ∧ after.node id = .ok node) :
    after.sharedAny = before.sharedAny ∧
      after.sharedEmpty = before.sharedEmpty := by
  have same : ∀ id,
      (after.sharedAny = some id ↔ before.sharedAny = some id) ∧
        (after.sharedEmpty = some id ↔ before.sharedEmpty = some id) := by
    intro id
    by_cases shared : before.isShared id = true ∨ after.isShared id = true
    · obtain ⟨node, found, stays⟩ := common id shared
      rw [← afterSound.any_iff id node stays, ← sound.any_iff id node found,
        ← afterSound.empty_iff id node stays, ← sound.empty_iff id node found]
      exact ⟨Iff.rfl, Iff.rfl⟩
    · rw [Store.isShared_iff, Store.isShared_iff, not_or, not_or, not_or]
        at shared
      exact ⟨iff_of_false shared.2.1 shared.1.1,
        iff_of_false shared.2.2 shared.1.2⟩
  exact ⟨Option.ext fun id => (same id).1, Option.ext fun id => (same id).2⟩

theorem Standard.not_step (standard : store.Standard) {id : Nat}
    (shared : store.isShared id = true) (next : Nat) :
    ¬ store.Step id next := by
  intro step
  obtain ⟨node, found, isTarget⟩ := step
  cases (isShared_iff store id).mp shared with
  | inl isAny =>
      rw [standard.any id isAny] at found
      cases found
      exact absurd isTarget List.not_mem_nil
  | inr isEmpty =>
      rw [standard.empty id isEmpty] at found
      cases found
      exact absurd isTarget List.not_mem_nil

/-- From a shared node no other one is reached. -/
theorem Standard.eq_of_reaches (standard : store.Standard)
    (shared : store.isShared start = true) {id : Nat}
    (reaches : store.Reaches start id) : id = start := by
  cases Relation.ReflTransGen.cases_head reaches with
  | inl same =>
      exact same.symm
  | inr further =>
      obtain ⟨next, step, _⟩ := further
      exact absurd step (standard.not_step shared next)

theorem Standard.ownNodes_eq_empty (standard : store.Standard)
    (shared : store.isShared start = true) : store.ownNodes start = ∅ := by
  apply Set.eq_empty_iff_forall_notMem.mpr
  intro id own
  have isStart := standard.eq_of_reaches shared own.1
  have notShared := own.2
  rw [isStart, shared] at notShared
  cases notShared

theorem Standard.intact (standard : store.Standard) (sound : store.Sound)
    (shared : store.isShared start = true) : store.Intact start := by
  intro id reaches
  rw [standard.eq_of_reaches shared reaches]
  exact sound.shared_live shared

/-- Standard shared nodes are regular ones. -/
theorem Standard.regular (standard : store.Standard) : store.Regular where
  any id node shared found := by
    rw [standard.any id shared] at found
    cases found
    rfl
  empty id node shared found := by
    rw [standard.empty id shared] at found
    cases found
    rfl

/-! ## Frames -/

section Frame

variable (intact : before.Intact start)
  (kept : ∀ id, before.Reaches start id → ∀ node,
    before.node id = .ok node → after.node id = .ok node)

include intact kept

/-- An automaton the nodes of which stay reaches what it reached. -/
theorem Intact.reaches_iff (id : Nat) :
    after.Reaches start id ↔ before.Reaches start id := by
  constructor
  · intro reaches
    induction reaches with
    | refl =>
        exact before.reaches_start start
    | tail _ step earlier =>
        obtain ⟨node, found⟩ := intact _ earlier
        obtain ⟨other, isOther, isTarget⟩ := step
        rw [kept _ earlier node found] at isOther
        cases isOther
        exact earlier.next ⟨node, found, isTarget⟩
  · intro reaches
    induction reaches with
    | refl =>
        exact after.reaches_start start
    | tail reached step earlier =>
        obtain ⟨node, found, isTarget⟩ := step
        exact earlier.next ⟨node, kept _ reached node found, isTarget⟩

theorem Intact.frame : after.Intact start := by
  intro id reaches
  rw [intact.reaches_iff kept] at reaches
  obtain ⟨node, found⟩ := intact id reaches
  exact ⟨node, kept id reaches node found⟩

theorem Intact.ownNodes_eq (sound : before.Sound)
    (afterSound : after.Sound) :
    after.ownNodes start = before.ownNodes start := by
  ext id
  rw [ownNodes, ownNodes, Set.mem_ofPred_eq, Set.mem_ofPred_eq,
    intact.reaches_iff kept]
  refine and_congr_right fun reaches => ?_
  obtain ⟨node, found⟩ := intact id reaches
  rw [sound.isShared_congr afterSound found (kept id reaches node found)]

theorem Intact.accepts {language : Language String}
    (accepts : before.Accepts start language) :
    after.Accepts start language := by
  intro word
  have same : ∀ id ∈ {id | before.Reaches start id},
      after.reader.read id = before.reader.read id := by
    intro id reaches
    obtain ⟨node, found⟩ := intact id reaches
    exact (kept id reaches node found).trans found.symm
  have sameWalk := intact.closed.walk_congr same
    (before.reaches_start start) word
  obtain ⟨walk, isWalk, accepted⟩ := accepts word
  exact ⟨walk, sameWalk.trans isWalk, accepted⟩

end Frame

/-! ## Releases -/

theorem Standard.leads_ownedTargets_iff (standard : store.Standard)
    (id next : Nat) :
    Search.Leads store.ownedTargets id next ↔ store.Step id next := by
  rw [Search.Leads, ownedTargets]
  by_cases shared : store.isShared id = true
  · rw [if_pos shared]
    refine iff_of_false ?_ (standard.not_step shared next)
    intro leads
    obtain ⟨found, isFound, isNext⟩ := leads
    cases isFound
    exact absurd isNext List.not_mem_nil
  · rw [if_neg shared, Step]
    constructor
    · intro leads
      obtain ⟨found, isFound, isNext⟩ := leads
      rw [bind_eq_ok_iff] at isFound
      obtain ⟨node, isNode, same⟩ := isFound
      cases same
      exact ⟨node, isNode, List.mem_reverse.mp isNext⟩
    · intro step
      obtain ⟨node, isNode, isTarget⟩ := step
      refine ⟨node.targets.reverse, ?_, List.mem_reverse.mpr isTarget⟩
      rw [isNode]
      rfl

/-- A release goes on to whatever is reached: a shared node leads nowhere. -/
theorem Standard.owns_iff_reaches (standard : store.Standard)
    (start id : Nat) : store.Owns start id ↔ store.Reaches start id := by
  have sameSteps : Search.Leads store.ownedTargets = store.Step := by
    funext id next
    exact propext (standard.leads_ownedTargets_iff id next)
  rw [Owns, Search.Reachable, Reaches, sameSteps]
  simp only [List.mem_singleton, exists_eq_left]

/-- A release does not fail. It frees what the automaton owns, and the rest
stays as it is. -/
theorem Intact.release (intact : store.Intact start) (sound : store.Sound)
    (standard : store.Standard) :
    ∃ count after, store.release start = .ok (count, after) ∧
      after.Sound ∧ after.Standard ∧
      (∀ id, after.Live id ↔
        store.Live id ∧ id ∉ store.ownNodes start) ∧
      ∀ id, id ∉ store.ownNodes start → ∀ node,
        store.node id = .ok node → after.node id = .ok node := by
  have live : ∀ id, store.Owns start id → store.Live id := by
    intro id owns
    exact intact id ((standard.owns_iff_reaches start id).mp owns)
  obtain ⟨count, after, result, afterSound, keeps, live_iff, kept⟩ :=
    exists_release sound live
  simp only [standard.owns_iff_reaches] at live_iff kept
  exact ⟨count, after, result, afterSound,
    keeps.standard sound afterSound standard, live_iff,
    fun id notOwn node found => kept id node found notOwn⟩

end Store

/-! ## Constructions -/

/-- The edges of every key that is met are those of a table. -/
def Tabled {κ : Type u} (spec : κ → SubsetStep κ) (start : κ) : Prop :=
  ∀ key accepting edges, Met spec start key →
    spec key = .expand accepting edges →
    ∃ table : AtomMap κ, edges = table.entries

namespace Built

open Store

variable {κ : Type u} {base after : Store} {spec : κ → SubsetStep κ}
  {start : κ} {keys : List κ} {nodeOf : κ → Nat}

/-- A step from the node of a key that has its own leads along an edge. -/
theorem exists_edge_of_step
    (built : Built base spec start keys nodeOf after) {key : κ}
    (met : Met spec start key) {accepting : Bool} {edges : List (Atom × κ)}
    (isStep : spec key = .expand accepting edges) {next : Nat}
    (step : after.Step (nodeOf key) next) :
    ∃ edge ∈ edges, next = nodeOf edge.2 := by
  obtain ⟨node, found, _, _, table⟩ :=
    built.expand key accepting edges met isStep
  obtain ⟨other, isOther, isTarget⟩ := step
  rw [found] at isOther
  cases isOther
  obtain ⟨name, leads⟩ := (node.transitions.mem_values_iff _).mp isTarget
  rw [table] at leads
  obtain ⟨target, isLast, same⟩ := Option.map_eq_some_iff.mp leads
  obtain ⟨atom, isEdge, _⟩ := exists_of_lastKey isLast
  exact ⟨(atom, target), isEdge, same.symm⟩

/-- A key that has a shared node leads nowhere. -/
theorem not_step (built : Built base spec start keys nodeOf after)
    (standard : after.Standard) {key : κ} (met : Met spec start key)
    (shares : ¬ (spec key).IsExpand) (next : Nat) :
    ¬ after.Step (nodeOf key) next := by
  cases isStep : spec key with
  | any =>
      exact standard.not_step ((isShared_iff after (nodeOf key)).mpr
        (Or.inl (built.any key met isStep))) next
  | empty =>
      exact standard.not_step ((isShared_iff after (nodeOf key)).mpr
        (Or.inr (built.empty key met isStep))) next
  | expand accepting edges =>
      exact absurd ⟨accepting, edges, isStep⟩ shares

/-- Steps lead along edges, from keys that are met to keys that are met. -/
theorem exists_key_of_reaches
    (built : Built base spec start keys nodeOf after)
    (ends : ∀ key, Met spec start key → ¬ (spec key).IsExpand →
      ∀ next, ¬ after.Step (nodeOf key) next)
    {id : Nat} (reaches : after.Reaches (nodeOf start) id) :
    ∃ key, Met spec start key ∧ id = nodeOf key := by
  induction reaches with
  | refl =>
      exact ⟨start, met_start spec start, rfl⟩
  | tail _ step earlier =>
      obtain ⟨key, met, rfl⟩ := earlier
      by_cases isExpand : (spec key).IsExpand
      · obtain ⟨accepting, edges, isStep⟩ := isExpand
        obtain ⟨edge, isEdge, same⟩ :=
          built.exists_edge_of_step met isStep step
        exact ⟨edge.2, met.next isStep isEdge, same⟩
      · exact absurd step (ends key met isExpand _)

/-- Each edge of a table has a step of its own, so every key that is met is
reached. -/
theorem reaches (built : Built base spec start keys nodeOf after)
    (tabled : Tabled spec start) {key : κ} (met : Met spec start key) :
    after.Reaches (nodeOf start) (nodeOf key) := by
  have both : Met spec start key ∧
      after.Reaches (nodeOf start) (nodeOf key) := by
    apply met.invariant
      (motive := fun key => Met spec start key ∧
        after.Reaches (nodeOf start) (nodeOf key))
    · exact ⟨met_start spec start, after.reaches_start _⟩
    · intro key accepting edges earlier isStep edge isEdge
      obtain ⟨isMet, isReached⟩ := earlier
      obtain ⟨table, isTable⟩ := tabled key accepting edges isMet isStep
      obtain ⟨node, found, _, _, leads⟩ :=
        built.expand key accepting edges isMet isStep
      have isLast : lastKey edges edge.1.name = some edge.2 := by
        rw [isTable] at isEdge ⊢
        rw [lastKey_entries]
        exact (table.find?_eq_some_iff _ _).mpr ⟨edge.1, isEdge, rfl⟩
      have isTarget : nodeOf edge.2 ∈ node.targets := by
        apply (node.transitions.mem_values_iff _).mpr
        refine ⟨edge.1.name, ?_⟩
        rw [leads, isLast]
        rfl
      exact ⟨isMet.next isStep isEdge, isReached.next ⟨node, found, isTarget⟩⟩
  exact both.2

theorem live (built : Built base spec start keys nodeOf after) {key : κ}
    (met : Met spec start key) : after.Live (nodeOf key) := by
  cases isStep : spec key with
  | any =>
      exact built.grown.sound.anyLive _ (built.any key met isStep)
  | empty =>
      exact built.grown.sound.emptyLive _ (built.empty key met isStep)
  | expand accepting edges =>
      obtain ⟨node, found, _⟩ := built.expand key accepting edges met isStep
      exact ⟨node, found⟩

theorem mem_ownNodes_iff (built : Built base spec start keys nodeOf after)
    (standard : after.Standard) (tabled : Tabled spec start) (id : Nat) :
    id ∈ after.ownNodes (nodeOf start) ↔ id ∈ keys.map nodeOf := by
  constructor
  · intro own
    obtain ⟨key, met, rfl⟩ := built.exists_key_of_reaches
      (fun _ => built.not_step standard) own.1
    have notShared := own.2
    rw [← Bool.not_eq_true, isShared_iff, not_or] at notShared
    apply List.mem_map_of_mem
    rw [built.mem_keys_iff]
    refine ⟨met, ?_⟩
    cases isStep : spec key with
    | any => exact absurd (built.any key met isStep) notShared.1
    | empty => exact absurd (built.empty key met isStep) notShared.2
    | expand accepting edges => exact ⟨accepting, edges, rfl⟩
  · intro member
    have notShared := built.grown.notShared member
    obtain ⟨key, isKey, rfl⟩ := List.mem_map.mp member
    have met := ((built.mem_keys_iff key).mp isKey).1
    exact ⟨built.reaches tabled met, notShared⟩

end Built

namespace Store

variable {store before after : Store} {left right : Nat}

/-- What a call gives back: an automaton that owns the nodes that the call
made, or a failure, and then the call made none but shared ones. -/
inductive Returns (base : Store) :
    Except StateLimitExceeded Nat → Store → Prop
  | automaton {start : Nat} {created : List Nat} {after : Store} :
      base.Grown created after →
      after.Intact start →
      (∀ id, id ∈ after.ownNodes start ↔ id ∈ created) →
      Returns base (.ok start) after
  | failure {failure : StateLimitExceeded} {after : Store} :
      base.Grown [] after →
      Returns base (.error failure) after

section Calls

variable (sound : store.Sound) (standard : store.Standard)

include sound standard

theorem returns_of_built {κ : Type u} {spec : κ → SubsetStep κ}
    {start : κ} {keys : List κ} {nodeOf : κ → Nat}
    (built : Built store spec start keys nodeOf after)
    (tabled : Tabled spec start) :
    store.Returns (.ok (nodeOf start)) after := by
  have afterStandard := built.grown.standard sound standard
  refine Returns.automaton built.grown ?_
    (built.mem_ownNodes_iff afterStandard tabled)
  intro id reaches
  obtain ⟨key, met, rfl⟩ := built.exists_key_of_reaches
    (fun _ => built.not_step afterStandard) reaches
  exact built.live met

/-- A shared node owns nothing. -/
theorem returns_of_shared {start : Nat} (grown : store.Grown [] after)
    (shared : after.isShared start = true) :
    store.Returns (.ok start) after := by
  have afterStandard := grown.standard sound standard
  refine Returns.automaton grown (afterStandard.intact grown.sound shared) ?_
  intro id
  rw [afterStandard.ownNodes_eq_empty shared]
  exact iff_of_false (Set.notMem_empty id) List.not_mem_nil

theorem anyNode_returns :
    store.Returns (.ok store.anyNode.1) store.anyNode.2 := by
  refine returns_of_shared sound standard (grown_start sound).anyNode ?_
  exact (isShared_iff _ _).mpr (Or.inl (sharedAny_anyNode store))

theorem emptyNode_returns :
    store.Returns (.ok store.emptyNode.1) store.emptyNode.2 := by
  refine returns_of_shared sound standard (grown_start sound).emptyNode ?_
  exact (isShared_iff _ _).mpr (Or.inr (sharedEmpty_emptyNode store))

/-- A compilation does not fail. It gives up if the model has more states than
the store allows, and returns its automaton if not. -/
theorem compileModel_cases {model : Model} (ordered : model.BoundsOrdered) :
    (¬ model.Exceeds store.stateLimit ∧ ∃ start after,
      store.compileModel model = .ok (.ok start, after) ∧
      store.Returns (.ok start) after) ∨
    (model.Exceeds store.stateLimit ∧ ∃ after,
      store.compileModel model = .ok (.error ⟨store.stateLimit⟩, after) ∧
      store.Grown [] after) := by
  have tabled : Tabled model.stateStep model.firstState := by
    intro set accepting edges met isStep
    obtain ⟨_, table, isTable⟩ := exists_table_of_mem_states ordered met
    rw [isStep] at isTable
    cases isTable
    exact ⟨table, rfl⟩
  cases compileModel_states sound ordered with
  | inl succeeds =>
      obtain ⟨_, _, after, result, fits, built⟩ := succeeds
      exact Or.inl ⟨fits, _, after, result,
        returns_of_built sound standard built tabled⟩
  | inr givesUp =>
      obtain ⟨after, result, exceeds, grown⟩ := givesUp
      exact Or.inr ⟨exceeds, after, result, grown⟩

theorem compileModel_returns {model : Model} (ordered : model.BoundsOrdered) :
    ∃ result after, store.compileModel model = .ok (result, after) ∧
      store.Returns result after := by
  cases compileModel_cases sound standard ordered with
  | inl succeeds =>
      obtain ⟨_, start, after, result, returns⟩ := succeeds
      exact ⟨_, after, result, returns⟩
  | inr givesUp =>
      obtain ⟨_, after, result, grown⟩ := givesUp
      exact ⟨_, after, result, Returns.failure grown⟩

/-- The union of two different automata does not fail. -/
theorem merge_returns (leftIntact : store.Intact left)
    (rightIntact : store.Intact right) (different : left ≠ right) :
    ∃ result after, store.merge left right = .ok (result, after) ∧
      store.Returns result after := by
  have regular := standard.regular
  have joins := joins_pair leftIntact.safe rightIntact.safe
  have tabled : Tabled store.unionSpec (pair left right) := by
    intro set accepting edges met isStep
    rcases unionSpec_cases (joins.of_met sound regular met) with
      ⟨isAny, _⟩ | ⟨isEmpty, _⟩ | ⟨tally, isExpand, _⟩
    · rw [isStep] at isAny
      cases isAny
    · rw [isStep] at isEmpty
      cases isEmpty
    · rw [isStep] at isExpand
      cases isExpand
      exact ⟨_, rfl⟩
  rcases merge_outcome sound regular leftIntact.safe rightIntact.safe
    different with
    ⟨keys, nodeOf, after, result, _, built⟩ | ⟨after, result, grown⟩
  · exact ⟨_, after, result, returns_of_built sound standard built tabled⟩
  · exact ⟨_, after, result, Returns.failure grown⟩

end Calls

end Store

end ContentModel.Automaton
